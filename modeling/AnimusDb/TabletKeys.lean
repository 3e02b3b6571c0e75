import AnimusDb.ItemKeyLayout
import AnimusDb.ByteCodec
import Mathlib.Data.Prod.Lex

/-! Keys of the data plane: a partition token in front, and behind it either the key of a row or one of the
internal keys of a transaction, which carries the timestamp of its start. Tablets are ranges of these keys. -/

open ByteCodec (be putPrefixed)
open AnimusDb.Items List
open RustText

namespace AnimusDb.Tablet

/-- The timestamp of a hybrid logical clock: a wall part and a logical part. -/
structure HlcTimestamp where
  wallMs : Nat
  logical : Nat
deriving DecidableEq

namespace HlcTimestamp

def zero : HlcTimestamp := ⟨0, 0⟩

/-- The order of the fields as declared. -/
def toLexPair (ts : HlcTimestamp) : Nat ×ₗ Nat := toLex (ts.wallMs, ts.logical)

theorem toLexPair_injective : Function.Injective toLexPair := by
  rintro ⟨w, l⟩ ⟨w', l'⟩ h
  obtain ⟨rfl, rfl⟩ := Prod.mk.inj h
  rfl

instance : LinearOrder HlcTimestamp := LinearOrder.lift' toLexPair toLexPair_injective

end HlcTimestamp

/-- A half-open key range; `stop = none` is unbounded above. -/
structure KeyRange where
  start : List UInt8
  stop : Option (List UInt8)
deriving DecidableEq

namespace KeyRange

def whole : KeyRange := ⟨[], none⟩

def contains (range : KeyRange) (key : List UInt8) : Bool :=
  !decide (key < range.start) && range.stop.all fun e => key < e

def containsRange (range other : KeyRange) : Bool :=
  if other.start < range.start then false
  else
    match other.stop, range.stop with
    | _, none => true
    | none, some _ => false
    | some inner, some outer => !decide (outer < inner)

def splitAt (range : KeyRange) (key : List UInt8) : Option (KeyRange × KeyRange) :=
  if ¬ range.start < key then none
  else if range.stop.any fun e => ¬ key < e then none
  else some (⟨range.start, some key⟩, ⟨key, range.stop⟩)

end KeyRange

/-- `TOKEN_BYTES`. -/
def tokenBytes : Nat := 8

/-- The next string of the same length, and whether the carry went past its front. -/
def incremented : List UInt8 → List UInt8 × Bool
  | [] => ([], true)
  | b :: rest =>
    match incremented rest with
    | (rest, true) => ((b + 1) :: rest, b = 0xFF)
    | (rest, false) => (b :: rest, false)

/-- Round a split key to a token boundary inside the range, down or else up; `false` where there is none. -/
def alignSplitKey (range : KeyRange) (streamed : Bool) (splitKey : List UInt8) : List UInt8 × Bool :=
  let down := splitKey.take tokenBytes
  if (range.splitAt down).isSome then (down, true)
  else if !streamed && down.length = tokenBytes then
    match incremented down with
    | (up, false) => if (range.splitAt up).isSome then (up, true) else (down, false)
    | _ => (down, false)
  else (down, false)

/-- No bound of the range lies inside a token. -/
def KeyRange.Aligned (range : KeyRange) : Prop :=
  range.start.length ≤ tokenBytes ∧ ∀ e ∈ range.stop, e.length ≤ tokenBytes

variable {range left right : KeyRange} {key token : List UInt8}

theorem splitAt_eq_some : range.splitAt key = some (left, right) ↔ range.start < key ∧
    (∀ e ∈ range.stop, key < e) ∧ left = ⟨range.start, some key⟩ ∧ right = ⟨key, range.stop⟩ := by
  obtain ⟨start, stop⟩ := range
  cases stop <;> simp only [KeyRange.splitAt] <;> grind

theorem contains_iff : range.contains key = true ↔ range.start ≤ key ∧ ∀ e ∈ range.stop, key < e := by
  simp [KeyRange.contains, Option.all_eq_true]

theorem append_lt_iff {bound : List UInt8} (hlen : bound.length ≤ token.length) (rest : List UInt8) :
    token ++ rest < bound ↔ token < bound := by
  induction bound generalizing token with
  | nil => simp
  | cons b bound ih =>
    cases token with
    | nil => simp at hlen
    | cons c token =>
      rw [cons_append, cons_lt_cons_iff, cons_lt_cons_iff, ih (Nat.le_of_succ_le_succ hlen)]

theorem KeyRange.Aligned.contains_append (h : range.Aligned) (htoken : token.length = tokenBytes)
    (rest : List UInt8) : range.contains (token ++ rest) = range.contains token := by
  have hstart := append_lt_iff (htoken ▸ h.1) rest
  unfold KeyRange.contains
  rw [decide_eq_decide.mpr hstart]
  cases hstop : range.stop with
  | none => rfl
  | some e =>
    have hend := append_lt_iff (htoken ▸ h.2 e hstop) rest
    simp only [Option.all_some, decide_eq_decide.mpr hend]

/-- The identity of a transaction: its timestamp and the node that minted it. -/
structure TxnId where
  ts : HlcTimestamp
  node : Text
deriving DecidableEq

/-- The parts of the identity fit the fixed widths of its encoding. -/
structure TxnId.Fits (id : TxnId) : Prop where
  wall : id.ts.wallMs < 256 ^ 8
  logical : id.ts.logical < 256 ^ 4
  node : (utf8 id.node).length < 256 ^ 4

def putTxnId (id : TxnId) : List UInt8 :=
  be 8 id.ts.wallMs ++ (be 4 id.ts.logical ++ putPrefixed (utf8 id.node))

def recordTag : UInt8 := 0x02

def resolvedTag : UInt8 := 0x04

/-- The key of a transaction's record; `none` where the code panics. -/
def recordKey (anchorToken : List UInt8) (id : TxnId) : Option (List UInt8) :=
  if anchorToken.length = tokenBytes then some (anchorToken ++ (0x00 :: recordTag :: putTxnId id)) else none

/-- The key of the marker that names the transaction last resolved at a key. -/
def resolvedMarkerKey (baseKey : List UInt8) : Option (List UInt8) :=
  if tokenBytes ≤ baseKey.length then
    some (baseKey.take tokenBytes ++ (0x00 :: resolvedTag :: baseKey))
  else none

/-- The lead pair behind the token. -/
def leadPair (key : List UInt8) : Option (UInt8 × UInt8) :=
  match key.drop tokenBytes with
  | a :: b :: _ => some (a, b)
  | _ => none

def isRecordKey (key : List UInt8) : Bool := leadPair key = some (0x00, recordTag)

def isResolvedMarkerKey (key : List UInt8) : Bool := leadPair key = some (0x00, resolvedTag)

def isInternalKey (key : List UInt8) : Bool := isRecordKey key || isResolvedMarkerKey key

variable {token' key' record marker : List UInt8} {id id' : TxnId}

theorem leadPair_append (htoken : token.length = tokenBytes) (a b : UInt8) (rest : List UInt8) :
    leadPair (token ++ a :: b :: rest) = some (a, b) := by
  rw [leadPair, drop_left' htoken]

theorem putTxnId_injective (h : id.Fits) (h' : id'.Fits) (heq : putTxnId id = putTxnId id') : id = id' := by
  obtain ⟨hwall, hrest⟩ := append_inj heq (by simp)
  obtain ⟨hlogical, hnode⟩ := append_inj hrest (by simp)
  obtain ⟨-, hnode⟩ := append_inj hnode (by simp)
  obtain ⟨⟨wall, logical⟩, node⟩ := id
  obtain ⟨⟨wall', logical'⟩, node'⟩ := id'
  have hwall := congrArg ByteCodec.ofBe hwall
  have hlogical := congrArg ByteCodec.ofBe hlogical
  rw [ByteCodec.ofBe_be_of_lt h.wall, ByteCodec.ofBe_be_of_lt h'.wall] at hwall
  rw [ByteCodec.ofBe_be_of_lt h.logical, ByteCodec.ofBe_be_of_lt h'.logical] at hlogical
  obtain rfl : wall = wall' := hwall
  obtain rfl : logical = logical' := hlogical
  obtain rfl : node = node' := utf8_injective hnode
  rfl

theorem recordKey_eq_some : recordKey token id = some record ↔
      token.length = tokenBytes ∧ record = token ++ (0x00 :: recordTag :: putTxnId id) := by
  unfold recordKey
  split_ifs with hlen
  · simp [hlen, eq_comm]
  · simp [hlen]

theorem resolvedMarkerKey_eq_some : resolvedMarkerKey key = some marker ↔
      tokenBytes ≤ key.length ∧ marker = key.take tokenBytes ++ (0x00 :: resolvedTag :: key) := by
  unfold resolvedMarkerKey
  split_ifs with hlen
  · simp [hlen, eq_comm]
  · simp [hlen]

theorem recordKey_injective (h : id.Fits) (h' : id'.Fits) (hrecord : recordKey token id = some record)
    (hrecord' : recordKey token' id' = some record) : token = token' ∧ id = id' := by
  obtain ⟨hlen, rfl⟩ := recordKey_eq_some.mp hrecord
  obtain ⟨hlen', heq⟩ := recordKey_eq_some.mp hrecord'
  obtain ⟨htoken, hrest⟩ := append_inj heq (hlen.trans hlen'.symm)
  simp only [cons.injEq, true_and] at hrest
  exact ⟨htoken, putTxnId_injective h h' hrest⟩

theorem resolvedMarkerKey_injective (hmarker : resolvedMarkerKey key = some marker)
    (hmarker' : resolvedMarkerKey key' = some marker) : key = key' := by
  obtain ⟨hlen, rfl⟩ := resolvedMarkerKey_eq_some.mp hmarker
  obtain ⟨hlen', heq⟩ := resolvedMarkerKey_eq_some.mp hmarker'
  obtain ⟨-, hrest⟩ := append_inj heq (by simp [hlen, hlen'])
  simpa using hrest

theorem isRecordKey_recordKey (h : recordKey token id = some record) : isRecordKey record = true := by
  obtain ⟨hlen, rfl⟩ := recordKey_eq_some.mp h
  simp [isRecordKey, leadPair_append hlen]

theorem isResolvedMarkerKey_resolvedMarkerKey (h : resolvedMarkerKey key = some marker) :
    isResolvedMarkerKey marker = true := by
  obtain ⟨hlen, rfl⟩ := resolvedMarkerKey_eq_some.mp h
  have htoken : (key.take tokenBytes).length = tokenBytes := by simp [hlen]
  simp [isResolvedMarkerKey, leadPair_append htoken]

theorem recordKey_ne_resolvedMarkerKey (hrecord : recordKey token id = some record)
    (hmarker : resolvedMarkerKey key = some marker) : record ≠ marker := by
  rintro rfl
  have h := of_decide_eq_true (isRecordKey_recordKey hrecord)
  have h' := of_decide_eq_true (isResolvedMarkerKey_resolvedMarkerKey hmarker)
  rw [h] at h'
  exact absurd h' (by decide)

theorem isInternalKey_append (htoken : token.length = tokenBytes) (a b : UInt8) (rest : List UInt8) :
    isInternalKey (token ++ a :: b :: rest) = decide (a = 0x00 ∧ (b = recordTag ∨ b = resolvedTag)) := by
  simp [isInternalKey, isRecordKey, isResolvedMarkerKey, leadPair_append htoken, and_or_left]

/-- Behind a token, an escaped component never looks like an internal key. -/
theorem isInternalKey_escape (htoken : token.length = tokenBytes) (a x : List UInt8) :
    isInternalKey (token ++ (escape a ++ x)) = false := by
  cases a with
  | nil => exact isInternalKey_append htoken 0x00 0x00 x
  | cons c a =>
    rw [escape_cons]
    split_ifs with hc
    · exact isInternalKey_append htoken 0x00 0x01 (escape a ++ x)
    · cases hx : escape a ++ x with
      | nil => simp [escape] at hx
      | cons d rest =>
        rw [cons_append, hx, isInternalKey_append htoken]
        simp [hc]

/-- A key of the data plane: the token of its partition, then the key of a row. -/
inductive IsUserKey (token : List UInt8) : List UInt8 → Prop
  | base (pk sk) : IsUserKey token (token ++ storageKey pk sk)
  | lsi (pk index alt sk) : IsUserKey token (token ++ lsiRowKey pk index alt sk)
  | gsi (ihash isort pk sk) : IsUserKey token (token ++ gsiRowKey ihash isort pk sk)

theorem IsUserKey.escaped {token key : List UInt8} (h : IsUserKey token key) :
    ∃ a x, key = token ++ (escape a ++ x) := by
  cases h with
  | base pk sk => exact ⟨_, _, rfl⟩
  | lsi pk index alt sk => exact ⟨_, _, rfl⟩
  | gsi ihash isort pk sk => exact ⟨_, _, rfl⟩

/-- The scan range of a prefix holds the keys that start with it. -/
theorem scans_escape (front a key : List UInt8) : ∃ stop, rangeEnd (front ++ escape a) = some stop ∧
      (Between (front ++ escape a) stop key ↔ front ++ escape a <+: key) :=
  ⟨_, rangeEnd_escape front a, between_rangeEnd (rangeEnd_escape front a)⟩

variable {token : List UInt8 → List UInt8}

/-- A token and the component behind it belong to one partition. -/
theorem token_prefix_iff (htoken : ∀ b, (token b).length = tokenBytes) {a b x y : List UInt8} :
    token a ++ (escape a ++ x) <+: token b ++ (escape b ++ y) ↔ b = a ∧ x <+: y := by
  constructor
  · rintro ⟨rest, hrest⟩
    rw [append_assoc, append_assoc] at hrest
    obtain ⟨-, hrest⟩ := append_inj hrest ((htoken a).trans (htoken b).symm)
    obtain ⟨rfl, htail⟩ := escape_append_inj hrest
    exact ⟨rfl, rest, htail⟩
  · rintro ⟨rfl, rest, rfl⟩
    exact ⟨rest, by simp⟩

/-- What the layout of keys promises. Values of one declared key type are told apart up to texts of one
number; `token` is the hash of a partition, of which only its width matters; tablet bounds lie between
tokens. -/
structure UnambiguousKeys : Prop where
  escape_order : ∀ a b, escape a < escape b ↔ a < b
  escape_prefix : ∀ a b, escape a <+: escape b → a = b
  peeled : ∀ key a x, peelEscaped key = some (a, x) ↔ key = escape a ++ x
  storage : ∀ {t u pk pk' sk sk'}, pk.IsKey t → pk'.IsKey t → SortKeys u sk sk' →
    (storageKey pk sk = storageKey pk' sk' ↔ SameKey pk pk' ∧ Option.Rel SameKey sk sk')
  lsi : ∀ {t u w pk pk' index index' alt alt' sk sk'}, pk.IsKey t → pk'.IsKey t → alt.IsKey u → alt'.IsKey u →
    SortKeys w sk sk' → (lsiRowKey pk index alt sk = lsiRowKey pk' index' alt' sk' ↔
      SameKey pk pk' ∧ index = index' ∧ SameKey alt alt' ∧ Option.Rel SameKey sk sk')
  gsi : ∀ {t u v w ihash ihash' isort isort' pk pk' sk sk'}, ihash.IsKey t → ihash'.IsKey t →
    SortKeys u isort isort' → pk.IsKey v → pk'.IsKey v → SortKeys w sk sk' →
    (gsiRowKey ihash isort pk sk = gsiRowKey ihash' isort' pk' sk' ↔
      SameKey ihash ihash' ∧ Option.Rel SameKey isort isort' ∧ SameKey pk pk' ∧ Option.Rel SameKey sk sk')
  lsi_parsed : ∀ pk index alt sk, parseLsiRowKey (lsiRowKey pk index alt sk) =
    some ⟨pk.keyBytes, index, alt.keyBytes, sortBytes sk⟩
  gsi_parsed : ∀ ihash isort pk sk, parseGsiRowKey (gsiRowKey ihash isort pk sk) isort.isSome =
    some ⟨ihash.keyBytes, isort.map AttributeValue.keyBytes, pk.keyBytes, sortBytes sk⟩
  base_partition : ∀ (token : List UInt8 → List UInt8), (∀ b, (token b).length = tokenBytes) →
    ∀ pk pk' sk, ∃ stop, rangeEnd (token pk.keyBytes ++ basePartitionPrefix pk) = some stop ∧
      (Between (token pk.keyBytes ++ basePartitionPrefix pk) stop (token pk'.keyBytes ++ storageKey pk' sk) ↔
        pk'.keyBytes = pk.keyBytes)
  lsi_partition : ∀ (token : List UInt8 → List UInt8), (∀ b, (token b).length = tokenBytes) →
    ∀ pk index pk' index' alt sk, ∃ stop, rangeEnd (token pk.keyBytes ++ lsiIndexPrefix pk index) = some stop ∧
      (Between (token pk.keyBytes ++ lsiIndexPrefix pk index) stop
        (token pk'.keyBytes ++ lsiRowKey pk' index' alt sk) ↔ pk'.keyBytes = pk.keyBytes ∧ index' = index)
  gsi_partition : ∀ (token : List UInt8 → List UInt8), (∀ b, (token b).length = tokenBytes) →
    ∀ ihash ihash' isort pk sk, ∃ stop, rangeEnd (token ihash.keyBytes ++ gsiHashPrefix ihash) = some stop ∧
      (Between (token ihash.keyBytes ++ gsiHashPrefix ihash) stop
          (token ihash'.keyBytes ++ gsiRowKey ihash' isort pk sk) ↔ ihash'.keyBytes = ihash.keyBytes)
  user_not_internal : ∀ {token key}, token.length = tokenBytes → IsUserKey token key → isInternalKey key = false
  record_injective : ∀ {token token' id id' record}, id.Fits → id'.Fits → recordKey token id = some record →
    recordKey token' id' = some record → token = token' ∧ id = id'
  marker_injective : ∀ {key key' marker}, resolvedMarkerKey key = some marker →
    resolvedMarkerKey key' = some marker → key = key'
  internal_not_user : ∀ {token key record}, token.length = tokenBytes → IsUserKey token key →
    ((∃ anchor id, recordKey anchor id = some record) ∨ ∃ base, resolvedMarkerKey base = some record) →
    record ≠ key
  record_not_marker : ∀ {token id record key marker}, recordKey token id = some record →
    resolvedMarkerKey key = some marker → record ≠ marker
  record_routed : ∀ {range : KeyRange} {key id record}, range.Aligned →
    recordKey (key.take tokenBytes) id = some record → range.contains record = range.contains key
  marker_routed : ∀ {range : KeyRange} {key marker}, range.Aligned → resolvedMarkerKey key = some marker →
    range.contains marker = range.contains key

theorem escape_append_eq_iff {a b x y : List UInt8} : escape a ++ x = escape b ++ y ↔ a = b ∧ x = y :=
  ⟨escape_append_inj, fun ⟨h, h'⟩ => h ▸ h' ▸ rfl⟩

theorem unambiguous_keys : UnambiguousKeys where
  escape_order _ _ := escape_lt_escape
  escape_prefix a b h := escape_prefix_append.mp (append_nil (escape b) ▸ h)
  peeled key a x := ⟨eq_of_peelEscaped, fun h => h ▸ peelEscaped_escape a x⟩
  storage hpk hpk' hsk := by
    rw [← keyBytes_eq_iff hpk hpk', ← sortBytes_eq_iff hsk]
    exact escape_append_eq_iff
  lsi hpk hpk' halt halt' hsk := by
    rw [← keyBytes_eq_iff hpk hpk', ← keyBytes_eq_iff halt halt', ← sortBytes_eq_iff hsk]
    simp only [lsiRowKey, lsiKey, escape_append_eq_iff,
      (show Function.Injective utf8 from fun _ _ => utf8_injective).eq_iff]
  gsi {_ _ _ _ _ _ isort isort' _ _ _ _} hhash hhash' hsort hpk hpk' hsk := by
    rw [← keyBytes_eq_iff hhash hhash', ← sortBytes_eq_iff hsort, ← keyBytes_eq_iff hpk hpk',
      ← sortBytes_eq_iff hsk]
    have hshape := hsort.1
    cases isort <;> cases isort'
    case none.none | some.some => simp [gsiRowKey, escape_append_eq_iff, sortBytes]
    all_goals cases hshape
  lsi_parsed _ _ _ _ := by simp [parseLsiRowKey, lsiRowKey, lsiKey, peelEscaped_escape, fromUtf8_utf8]
  gsi_parsed _ isort _ _ := by cases isort <;> simp [parseGsiRowKey, gsiRowKey, peelEscaped_escape]
  base_partition token htoken pk pk' sk := by
    obtain ⟨stop, hstop, hiff⟩ := scans_escape (token pk.keyBytes) pk.keyBytes
      (token pk'.keyBytes ++ storageKey pk' sk)
    refine ⟨stop, hstop, hiff.trans ?_⟩
    have h := token_prefix_iff htoken (a := pk.keyBytes) (b := pk'.keyBytes) (x := []) (y := sortBytes sk)
    rw [append_nil] at h
    exact h.trans (and_iff_left nil_prefix)
  lsi_partition token htoken pk index pk' index' alt sk := by
    obtain ⟨stop, hstop, hiff⟩ := scans_escape (token pk.keyBytes ++ escape pk.keyBytes) (utf8 index)
      (token pk'.keyBytes ++ lsiRowKey pk' index' alt sk)
    rw [append_assoc] at hstop hiff
    refine ⟨stop, hstop, hiff.trans ((token_prefix_iff htoken).trans (and_congr_right fun _ => ?_))⟩
    refine escape_prefix_append.trans ⟨fun h => (utf8_injective h).symm, ?_⟩
    rintro rfl
    rfl
  gsi_partition token htoken ihash ihash' isort pk sk := by
    obtain ⟨stop, hstop, hiff⟩ := scans_escape (token ihash.keyBytes) ihash.keyBytes
      (token ihash'.keyBytes ++ gsiRowKey ihash' isort pk sk)
    refine ⟨stop, hstop, hiff.trans ?_⟩
    have h := token_prefix_iff htoken (a := ihash.keyBytes) (b := ihash'.keyBytes) (x := [])
      (y := isort.elim [] (fun v => escape v.keyBytes) ++ (escape pk.keyBytes ++ sortBytes sk))
    rw [append_nil] at h
    exact h.trans (and_iff_left nil_prefix)
  user_not_internal htoken hkey := by
    obtain ⟨a, x, rfl⟩ := hkey.escaped
    exact isInternalKey_escape htoken a x
  record_injective := recordKey_injective
  marker_injective := resolvedMarkerKey_injective
  internal_not_user htoken hkey hinternal := by
    rintro rfl
    obtain ⟨a, x, rfl⟩ := hkey.escaped
    have hfalse := isInternalKey_escape htoken a x
    rcases hinternal with ⟨anchor, id, h⟩ | ⟨base, h⟩
    · simp [isInternalKey, isRecordKey_recordKey h] at hfalse
    · simp [isInternalKey, isResolvedMarkerKey_resolvedMarkerKey h] at hfalse
  record_not_marker := recordKey_ne_resolvedMarkerKey
  record_routed {_ key _ _} haligned hrecord := by
    obtain ⟨hlen, rfl⟩ := recordKey_eq_some.mp hrecord
    conv_rhs => rw [← take_append_drop tokenBytes key]
    rw [haligned.contains_append hlen, haligned.contains_append hlen]
  marker_routed {_ key _} haligned hmarker := by
    obtain ⟨hlen, rfl⟩ := resolvedMarkerKey_eq_some.mp hmarker
    have htoken : (key.take tokenBytes).length = tokenBytes := by simp [hlen]
    conv_rhs => rw [← take_append_drop tokenBytes key]
    rw [haligned.contains_append htoken, haligned.contains_append htoken]

/-- Two spellings of a number have one key, and a tablet that starts inside a token holds a row of the token
but not the record of its transaction. -/
theorem respelled_key_and_split_token : (storageKey (.N "1".toList) none = storageKey (.N "1.0".toList) none ∧
      AttributeValue.N "1".toList ≠ .N "1.0".toList) ∧
      ∃ record, recordKey (replicate 8 0) ⟨⟨1, 0⟩, "n0".toList⟩ = some record ∧
      (⟨replicate 8 0 ++ [1], none⟩ : KeyRange).contains record = false ∧
      (⟨replicate 8 0 ++ [1], none⟩ : KeyRange).contains (replicate 8 0 ++ storageKey (.S "a".toList) none) =
        true := by
  refine ⟨⟨by decide +kernel, by decide +kernel⟩, _, rfl, by decide +kernel, by decide +kernel⟩

/-- An aligned range that holds a key of a token holds every range of keys of the token. -/
theorem KeyRange.Aligned.containsRange_append {range : KeyRange} {token row : List UInt8} (h : range.Aligned)
    (htoken : token.length = tokenBytes) (hrow : range.contains (token ++ row) = true) (x y : List UInt8) :
    range.containsRange ⟨token ++ x, some (token ++ y)⟩ = true := by
  have hall (z : List UInt8) : range.contains (token ++ z) = true := by
    rw [h.contains_append htoken, ← h.contains_append htoken row]
    exact hrow
  have hstart := (contains_iff.mp (hall x)).1
  have hstop := (contains_iff.mp (hall y)).2
  unfold KeyRange.containsRange
  rw [if_neg (List.not_lt.mpr hstart)]
  cases hend : range.stop with
  | none => rfl
  | some e => simpa using List.le_of_lt (hstop e hend)

/-- The scan of an index for one hash and sort value: its range holds the rows of these values and no
others, and lies in whatever tablet holds a row of the hash. -/
theorem gsi_sort_scan_exact (token : List UInt8 → List UInt8) (htoken : ∀ b, (token b).length = tokenBytes)
    (ihash isort : AttributeValue) :
    ∃ stop, rangeEnd (token ihash.keyBytes ++ gsiHashSortPrefix ihash isort) = some stop ∧
      (∀ ihash' isort' pk sk, Between (token ihash.keyBytes ++ gsiHashSortPrefix ihash isort) stop
          (token ihash'.keyBytes ++ gsiRowKey ihash' (some isort') pk sk) ↔
        ihash'.keyBytes = ihash.keyBytes ∧ isort'.keyBytes = isort.keyBytes) ∧
      ∀ range : KeyRange, range.Aligned → ∀ row, range.contains (token ihash.keyBytes ++ row) = true →
        range.containsRange ⟨token ihash.keyBytes ++ gsiHashSortPrefix ihash isort, some stop⟩ = true := by
  have hend := rangeEnd_escape (token ihash.keyBytes ++ escape ihash.keyBytes) isort.keyBytes
  rw [append_assoc, append_assoc] at hend
  refine ⟨_, hend, fun ihash' isort' pk sk => ?_, fun range haligned row hrow => ?_⟩
  · refine (between_rangeEnd hend).trans ((token_prefix_iff htoken).trans (and_congr_right fun _ => ?_))
    exact escape_prefix_append.trans eq_comm
  · exact haligned.containsRange_append (htoken _) hrow _ _

/-- With every token zero, the rows of one hash and sort value are in the tablet from the token on. -/
theorem gsi_sort_scan_exact_zero : ∃ stop, rangeEnd (replicate 8 0 ++ gsiHashSortPrefix (.S ['a']) (.B [0])) =
    some stop ∧ (⟨replicate 8 0, none⟩ : KeyRange).containsRange
      ⟨replicate 8 0 ++ gsiHashSortPrefix (.S ['a']) (.B [0]), some stop⟩ = true := by
  obtain ⟨stop, hstop, -, hserved⟩ := gsi_sort_scan_exact (fun _ => replicate 8 0) (fun _ => rfl) (.S ['a'])
    (.B [0])
  exact ⟨stop, hstop, hserved _ ⟨by decide, by simp⟩ [] (by decide)⟩

end AnimusDb.Tablet
