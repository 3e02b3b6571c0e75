import AnimusDb.ItemWire

/-! Items on the wire and back: what is encoded is decoded to the same item, and what is decoded is well formed. -/

open RustText
open List hiding set

namespace AnimusDb.Items

def base64Alphabet : List Char := "ABCDEFGHIJKLMNOPQRSTUVWXYZabcdefghijklmnopqrstuvwxyz0123456789+/".toList

/-- The character of six bits. -/
def base64Char (bits : Nat) : Char := base64Alphabet.getD bits '='

/-- The four characters of up to three bytes. -/
def base64Quantum (chunk : List UInt8) : Text :=
  let b0 := (chunk.getD 0 0).toNat
  let b1 := (chunk.getD 1 0).toNat
  let b2 := (chunk.getD 2 0).toNat
  [base64Char (b0 / 4), base64Char (b0 % 4 * 16 + b1 / 16),
    if 1 < chunk.length then base64Char (b1 % 16 * 4 + b2 / 64) else '=',
    if 2 < chunk.length then base64Char (b2 % 64) else '=']

def base64Encode : List UInt8 → Text
  | a :: b :: c :: rest => base64Quantum [a, b, c] ++ base64Encode rest
  | [] => []
  | chunk => base64Quantum chunk

/-- A character of the alphabet is one byte, not the padding, and stands for its bits. -/
theorem base64Char_byte (bits : Nat) (h : bits < 64) :
    ∃ byte, String.utf8EncodeChar (base64Char bits) = [byte] ∧ byte ≠ base64Pad ∧
    base64Value byte = some bits := by
  have hall : ∀ bits < 64, (String.utf8EncodeChar (base64Char bits)).length = 1 ∧
      (String.utf8EncodeChar (base64Char bits)).head? ≠ some base64Pad ∧
      (String.utf8EncodeChar (base64Char bits)).head?.bind base64Value = some bits := by decide +kernel
  obtain ⟨hlength, hpad, hvalue⟩ := hall bits h
  obtain ⟨byte, hbyte⟩ := length_eq_one_iff.mp hlength
  rw [hbyte] at hpad hvalue ⊢
  exact ⟨byte, rfl, fun heq => hpad (congrArg some heq), hvalue⟩

theorem ofNat_of_mod {n : Nat} {b : UInt8} (h : n % 256 = b.toNat) : UInt8.ofNat n = b :=
  UInt8.toNat_inj.mp (UInt8.toNat_ofNat'.trans h)

theorem utf8_pad : String.utf8EncodeChar '=' = [base64Pad] := by decide

/-- Up to three bytes come back from their four characters, three of them wherever they stand. -/
theorem base64Quantum_read {chunk : List UInt8} (hne : chunk ≠ []) (hlen : chunk.length ≤ 3) :
    ∃ x0 x1 x2 x3, utf8 (base64Quantum chunk) = [x0, x1, x2, x3] ∧
      ∀ last, chunk.length = 3 ∨ last = true → base64Chunk [x0, x1, x2, x3] last = some chunk := by
  have hbyte (i : Nat) := (chunk.getD i 0).toNat_lt
  have ha := hbyte 0
  have hb := hbyte 1
  have hc := hbyte 2
  obtain ⟨x0, hx0, hp0, hv0⟩ := base64Char_byte ((chunk.getD 0 0).toNat / 4) (by omega)
  obtain ⟨x1, hx1, hp1, hv1⟩ := base64Char_byte
    ((chunk.getD 0 0).toNat % 4 * 16 + (chunk.getD 1 0).toNat / 16) (by omega)
  obtain ⟨x2, hx2, hp2, hv2⟩ := base64Char_byte
    ((chunk.getD 1 0).toNat % 16 * 4 + (chunk.getD 2 0).toNat / 64) (by omega)
  obtain ⟨x3, hx3, hp3, hv3⟩ := base64Char_byte ((chunk.getD 2 0).toNat % 64) (by omega)
  match chunk with
  | [] => exact absurd rfl hne
  | [a] =>
    simp at *
    refine ⟨x0, x1, base64Pad, base64Pad, by simp [utf8, base64Quantum, hx0, hx1, utf8_pad], ?_⟩
    simp [base64Chunk, hp0, hp1, hv0, hv1, Ne.symm]
    exact ofNat_of_mod (by omega)
  | [a, b] =>
    simp at *
    refine ⟨x0, x1, x2, base64Pad, by simp [utf8, base64Quantum, hx0, hx1, hx2, utf8_pad], ?_⟩
    simp [base64Chunk, hp0, hp1, hp2, hv0, hv1, hv2, Ne.symm]
    exact ⟨ofNat_of_mod (by omega), ofNat_of_mod (by omega)⟩
  | [a, b, c] =>
    refine ⟨x0, x1, x2, x3, by simp_all [utf8, base64Quantum], fun last _ => ?_⟩
    simp at ha hb hc hv0 hv1 hv2 hv3
    simp [base64Chunk, hp0, hp1, hp2, hp3, hv0, hv1, hv2, hv3, -UInt8.ofNat_add]
    exact ⟨ofNat_of_mod (by omega), ofNat_of_mod (by omega), ofNat_of_mod (by omega)⟩

theorem utf8_append (a b : Text) : utf8 (a ++ b) = utf8 a ++ utf8 b := flatMap_append

theorem base64Chunks_encode (bytes : List UInt8) :
    (utf8 (base64Encode bytes)).length % 4 = 0 ∧ base64Chunks (utf8 (base64Encode bytes)) = some bytes := by
  fun_induction base64Encode bytes with
  | case1 a b c rest ih =>
    obtain ⟨x0, x1, x2, x3, hutf8, hchunk⟩ := base64Quantum_read (cons_ne_nil a [b, c]) le_rfl
    obtain ⟨hlength, hrest⟩ := ih
    rw [utf8_append, hutf8]
    constructor
    · simp only [cons_append, nil_append, length_cons]
      omega
    · simp [base64Chunks, hchunk, hrest]
  | case2 => exact ⟨rfl, rfl⟩
  | case3 chunk hlong hne =>
    -- one byte or two are left
    have hlen : chunk.length ≤ 3 := by
      match chunk with
      | [] | [_] | [_, _] => simp
      | a :: b :: c :: rest => exact absurd rfl (hlong a b c rest)
    obtain ⟨x0, x1, x2, x3, hutf8, hchunk⟩ := base64Quantum_read hne hlen
    rw [hutf8]
    exact ⟨by simp, by simp [base64Chunks, hchunk]⟩

theorem base64Decode_encode (bytes : List UInt8) : base64Decode (base64Encode bytes) = some bytes := by
  obtain ⟨hlength, hchunks⟩ := base64Chunks_encode bytes
  unfold base64Decode
  simp only
  rw [if_pos hlength, hchunks]

/-- An object with one key, the type. -/
def typedObject (ty : String) (inner : Json) : Json := .object [(ty.toList, inner)]

mutual

def encodeAttributeValue : AttributeValue → Json
  | .S s => typedObject "S" (.string s)
  | .N n => typedObject "N" (.string n)
  | .B b => typedObject "B" (.string (base64Encode b))
  | .bool b => typedObject "BOOL" (.bool b)
  | .null => typedObject "NULL" (.bool true)
  | .M map => typedObject "M" (.object (encodeFields map))
  | .L list => typedObject "L" (.array (encodeList list))
  | .SS set => typedObject "SS" (.array (set.map .string))
  | .NS set => typedObject "NS" (.array (set.map .string))
  | .BS set => typedObject "BS" (.array (set.map fun b => .string (base64Encode b)))

def encodeFields : List (Text × AttributeValue) → List (Text × Json)
  | [] => []
  | (k, v) :: rest => (k, encodeAttributeValue v) :: encodeFields rest

def encodeList : List AttributeValue → List Json
  | [] => []
  | v :: rest => encodeAttributeValue v :: encodeList rest

end

/-- The object's entries; the item's own order is kept. -/
def encodeItem (item : Item) : List (Text × Json) := encodeFields item

/-- The loop over the attributes. -/
def decodeAttributes (item : Item) : List (Text × Json) → Except WireError Item
  | [] => .ok item
  | (name, value) :: rest => do
      checkAttributeName name
      let value ← decodeAttributeValue name 1 value
      decodeAttributes (Fields.insert item name value) rest

def decodeItem (map : List (Text × Json)) : Except WireError Item := decodeAttributes [] map

/-- Every map within the value has accepted names. -/
inductive AttributeValue.Named : AttributeValue → Prop
  | M {m : Fields} (hnames : ∀ name ∈ m.map Prod.fst, NameAccepted name) (h : ∀ f ∈ m, Named f.2) : Named (.M m)
  | L {l : List AttributeValue} (h : ∀ v ∈ l, Named v) : Named (.L l)
  | S (s : Text) : Named (.S s)
  | N (n : Text) : Named (.N n)
  | B (b : List UInt8) : Named (.B b)
  | bool (b : Bool) : Named (.bool b)
  | null : Named .null
  | SS (s : List Text) : Named (.SS s)
  | NS (s : List Text) : Named (.NS s)
  | BS (s : List (List UInt8)) : Named (.BS s)

/-- An item's names are accepted, at every level. -/
structure ItemNamed (item : Item) : Prop where
  names : ∀ name ∈ item.map Prod.fst, NameAccepted name
  values : ∀ f ∈ item, f.2.Named

variable {α : Type} [Ord α] [DecidableEq α] [Std.LawfulEqOrd α]

theorem dedupSorted_of_ascending {items : List α} (h : Ascending items) : dedupSorted items = items := by
  have hle : items.Pairwise fun a b => (compare a b).isLE = true := h.imp fun hlt => by rw [hlt]; rfl
  have hne : items.Pairwise fun a b => a ≠ b := by
    refine h.imp fun {a b} hlt heq => ?_
    rw [heq, Std.ReflOrd.compare_self] at hlt
    cases hlt
  unfold dedupSorted
  rw [List.Pairwise.insertionSort_eq hle, destutter_of_isChain _ _ hne.isChain]

theorem mapM_map_ok {α β ε : Type} {f : β → Except ε α} {g : α → β} (h : ∀ a, f (g a) = .ok a) (l : List α) :
    (l.map g).mapM f = .ok l := by
  induction l with
  | nil => rfl
  | cons a l ih => rw [map_cons, mapM_cons, h, ih]; rfl

theorem encodedSet_ok {ε : Type} {f : Json → Except ε α} {g : α → Json} (hread : ∀ a, f (g a) = .ok a)
    {s : List α} (h : Ascending s) : ((s.map g).mapM f >>= fun out => .ok (dedupSorted out)) = .ok s := by
  rw [mapM_map_ok hread]
  exact congrArg Except.ok (dedupSorted_of_ascending h)

theorem isEmpty_map_false {α β : Type} {g : α → β} {l : List α} (h : l ≠ []) :
    ¬ (l.map g).isEmpty = true := by
  intro hempty
  exact h (map_eq_nil_iff.mp (isEmpty_iff.mp hempty))

theorem decodeStringSet_encode (name : Text) (numbers : Bool) {s : List Text} (hne : s ≠ [])
    (h : Ascending s) : decodeStringSet name numbers (.array (s.map .string)) = .ok s := by
  unfold decodeStringSet
  refine (if_neg (isEmpty_map_false hne)).trans ?_
  exact encodedSet_ok (g := .string) (fun _ => rfl) h

theorem decodeBinarySet_encode (name : Text) {s : List (List UInt8)} (hne : s ≠ []) (h : Ascending s) :
    decodeBinarySet name (.array (s.map fun b => .string (base64Encode b))) = .ok s := by
  unfold decodeBinarySet
  refine (if_neg (isEmpty_map_false hne)).trans (encodedSet_ok (fun b => ?_) h)
  change orRefuse _ (base64Decode (base64Encode b)) = .ok b
  rw [base64Decode_encode]
  rfl

variable {name : Text} {inner : Json} {ty : String} {depth : Nat} {item : Item}

theorem insert_above {fields : Fields} (v : AttributeValue)
    (h : ∀ n ∈ fields.map Prod.fst, compare n name = .lt) :
    Fields.insert fields name v = fields ++ [(name, v)] := by
  induction fields with
  | nil => rfl
  | cons field rest ih =>
    obtain ⟨k, w⟩ := field
    have hgt : compare name k = .gt := Std.OrientedCmp.gt_of_lt (h k mem_cons_self)
    unfold Fields.insert
    rw [hgt]
    simp only [cons_append, cons.injEq, true_and]
    exact ih fun n hn => h n (mem_cons_of_mem _ hn)

/-- A loop over encoded attributes that inserts each of them. -/
def Takes (loop : Fields → List (Text × Json) → Except WireError Fields) (m : Fields) : Prop :=
  ∀ f ∈ m, ∀ nested rest, loop nested ((f.1, encodeAttributeValue f.2) :: rest) =
    loop (Fields.insert nested f.1 f.2) rest

theorem takes_encode {loop : Fields → List (Text × Json) → Except WireError Fields} {m : Fields}
    (hnil : ∀ nested, loop nested [] = .ok nested) (nested : Fields) (h : Takes loop m)
    (hascending : Ascending ((nested ++ m).map Prod.fst)) :
      loop nested (encodeFields m) = .ok (nested ++ m) := by
  induction m generalizing nested with
  | nil =>
    unfold encodeFields
    rw [append_nil, hnil]
  | cons f m ih =>
    obtain ⟨hf, hm⟩ := forall_mem_cons.mp h
    unfold encodeFields
    have hlast : Fields.insert nested f.1 f.2 = nested ++ [f] := insert_above f.2 fun n hn => by
      rw [map_append] at hascending
      exact (pairwise_append.mp hascending).2.2 n hn f.1 (by simp)
    rw [hf, hlast, ih _ hm (by rwa [append_assoc]), append_assoc]
    rfl

theorem fieldsDepth_le {m : Fields} {bound : Nat} :
    fieldsDepth m ≤ bound ↔ ∀ f ∈ m, valueDepth f.2 ≤ bound := by
  induction m with
  | nil => simp [fieldsDepth]
  | cons f m ih => rw [fieldsDepth, max_le_iff, ih, forall_mem_cons]

theorem listDepth_le {l : List AttributeValue} {bound : Nat} :
    listDepth l ≤ bound ↔ ∀ v ∈ l, valueDepth v ≤ bound := by
  induction l with
  | nil => simp [listDepth]
  | cons v l ih => rw [listDepth, max_le_iff, ih, forall_mem_cons]

theorem decodeAttributeValue_typed (h : depth ≤ maxNestingDepth) :
    decodeAttributeValue name depth (typedObject ty inner) = decodeTyped name depth ty inner := by
  unfold typedObject decodeAttributeValue
  rw [if_neg (Nat.not_lt.mpr h)]
  simp only [String.ofList_toList]

theorem decode_scalar {v : AttributeValue}
    (h : decodeScalar name ty inner = .ok v) (hdepth : depth + 1 ≤ maxNestingDepth + 1) (hM : ty ≠ "M")
    (hL : ty ≠ "L") : decodeAttributeValue name depth (typedObject ty inner) = .ok v := by
  rw [decodeAttributeValue_typed (by omega), ← h]
  cases inner <;> unfold decodeTyped <;> rw [if_neg hM, if_neg hL]

mutual

theorem decodeAttributeValue_encode (name : Text) (depth : Nat) :
    (v : AttributeValue) → v.WellFormed → v.Named → depth + valueDepth v ≤ maxNestingDepth + 1 →
      decodeAttributeValue name depth (encodeAttributeValue v) = .ok v
  | .S s, _, _, hdepth => decode_scalar rfl hdepth (by decide) (by decide)
  | .N n, .N h, _, hdepth => decode_scalar (if_pos h) hdepth (by decide) (by decide)
  | .B b, _, _, hdepth => by
      refine decode_scalar (bind_eq_ok.mpr ⟨base64Encode b, rfl, bind_eq_ok.mpr ⟨b, ?_, rfl⟩⟩) hdepth
        (by decide) (by decide)
      rw [base64Decode_encode]
      rfl
  | .bool b, _, _, hdepth => decode_scalar rfl hdepth (by decide) (by decide)
  | .null, _, _, hdepth => decode_scalar rfl hdepth (by decide) (by decide)
  | .SS s, .SS hne h, _, hdepth =>
      decode_scalar (bind_eq_ok.mpr ⟨s, decodeStringSet_encode name false hne h, rfl⟩) hdepth (by decide)
        (by decide)
  | .NS s, .NS hne h _ _, _, hdepth =>
      decode_scalar (bind_eq_ok.mpr ⟨s, decodeStringSet_encode name true hne h, rfl⟩) hdepth (by decide) (by decide)
  | .BS s, .BS hne h, _, hdepth =>
      decode_scalar (bind_eq_ok.mpr ⟨s, decodeBinarySet_encode name hne h, rfl⟩) hdepth (by decide) (by decide)
  | .M m, .M hascending hvalues, .M hnames hnamed, hdepth => by
      unfold encodeAttributeValue
      unfold valueDepth at hdepth
      rw [decodeAttributeValue_typed (by omega)]
      unfold decodeTyped
      rw [if_pos rfl]
      exact bind_eq_ok.mpr ⟨m, takes_encode (fun _ => rfl) []
        (decodeFields_encode name depth m hvalues hnames hnamed (by omega)) hascending, rfl⟩
  | .L l, .L hvalues, .L hnamed, hdepth => by
      unfold encodeAttributeValue
      unfold valueDepth at hdepth
      rw [decodeAttributeValue_typed (by omega)]
      unfold decodeTyped
      rw [if_neg (by decide), if_pos rfl]
      exact bind_eq_ok.mpr ⟨l, decodeList_encode name depth 0 l hvalues hnamed (by omega), rfl⟩

theorem decodeFields_encode (name : Text) (depth : Nat) :
    (m : Fields) → (∀ f ∈ m, f.2.WellFormed) → (∀ n ∈ m.map Prod.fst, NameAccepted n) → (∀ f ∈ m, f.2.Named) →
      depth + 1 + fieldsDepth m ≤ maxNestingDepth + 1 → Takes (decodeFields name depth) m
  | [], _, _, _, _ => forall_mem_nil _
  | (k, v) :: m, hvalues, hnames, hnamed, hdepth => by
      unfold fieldsDepth at hdepth
      have hk : NameAccepted k := hnames k mem_cons_self
      have hv := decodeAttributeValue_encode (name ++ '.' :: k) (depth + 1) v (hvalues _ mem_cons_self)
        (hnamed _ mem_cons_self) (by omega)
      refine forall_mem_cons.mpr ⟨fun nested rest => ?_, ?_⟩
      · rw [decodeFields, checkAttributeName_ok.mpr hk, hv]
        rfl
      · exact decodeFields_encode name depth m (forall_mem_cons.mp hvalues).2 (forall_mem_cons.mp hnames).2
          (forall_mem_cons.mp hnamed).2 (by omega)

theorem decodeList_encode (name : Text) (depth i : Nat) :
    (l : List AttributeValue) → (∀ v ∈ l, v.WellFormed) → (∀ v ∈ l, v.Named) →
      depth + 1 + listDepth l ≤ maxNestingDepth + 1 → decodeList name depth i (encodeList l) = .ok l
  | [], _, _, _ => by
      unfold encodeList decodeList
      rfl
  | v :: rest, hvalues, hnamed, hdepth => by
      unfold listDepth at hdepth
      have hv := decodeAttributeValue_encode (name ++ '[' :: ((toString i).toList ++ [']'])) (depth + 1) v
        (hvalues v mem_cons_self) (hnamed v mem_cons_self) (by omega)
      have hrest := decodeList_encode name depth (i + 1) rest (forall_mem_cons.mp hvalues).2
        (forall_mem_cons.mp hnamed).2 (by omega)
      unfold encodeList decodeList
      rw [hv, hrest]
      rfl

end

theorem decodeItem_encode (hwf : ItemWellFormed item) (hnamed : ItemNamed item) :
    decodeItem (encodeItem item) = .ok item := by
  change decodeAttributes [] (encodeFields item) = .ok ([] ++ item)
  refine takes_encode (fun _ => rfl) [] (fun f hf nested rest => ?_) hwf.fields.names
  have hdepth := fieldsDepth_le.mp hwf.depth f hf
  have hv := decodeAttributeValue_encode f.1 1 f.2 (hwf.fields.values f hf) (hnamed.values f hf) (by omega)
  rw [decodeAttributes, checkAttributeName_ok.mpr (hnamed.names f.1 (mem_map_of_mem hf)), hv]
  rfl

variable {map : List (Text × Json)}

/-- What is decoded at a depth: within the limit from there on, its names accepted. -/
structure Placed (depth : Nat) (v : AttributeValue) : Prop where
  depth : depth + valueDepth v ≤ maxNestingDepth + 1
  named : v.Named

theorem decodeScalar_flat {v : AttributeValue} (h : decodeScalar name ty inner = .ok v) :
    valueDepth v = 1 ∧ v.Named := by
  unfold decodeScalar at h
  split at h
  · obtain ⟨s, -, h⟩ := bind_eq_ok.mp h
    cases h
    exact ⟨rfl, .S s⟩
  · obtain ⟨s, -, h⟩ := bind_eq_ok.mp h
    split at h
    · cases h
      exact ⟨rfl, .N s⟩
    · cases h
  · obtain ⟨s, -, h⟩ := bind_eq_ok.mp h
    obtain ⟨b, -, h⟩ := bind_eq_ok.mp h
    cases h
    exact ⟨rfl, .B b⟩
  · split at h
    · cases h
      exact ⟨rfl, .bool _⟩
    · cases h
  · cases h
    exact ⟨rfl, .null⟩
  · obtain ⟨s, -, h⟩ := bind_eq_ok.mp h
    cases h
    exact ⟨rfl, .SS s⟩
  · obtain ⟨s, -, h⟩ := bind_eq_ok.mp h
    cases h
    exact ⟨rfl, .NS s⟩
  · obtain ⟨s, -, h⟩ := bind_eq_ok.mp h
    cases h
    exact ⟨rfl, .BS s⟩
  · cases h

theorem decodeRule_placed : DecodeRule Placed where
  scalar hdepth h := by
    obtain ⟨hflat, hnamed⟩ := decodeScalar_flat h
    exact ⟨by omega, hnamed⟩
  map {depth m} hdepth _ hnames hvalues := by
    have hbound : fieldsDepth m ≤ maxNestingDepth - depth := fieldsDepth_le.mpr fun f hf => by
      have := (hvalues f hf).depth
      omega
    exact ⟨by unfold valueDepth; omega, .M hnames fun f hf => (hvalues f hf).named⟩
  list {depth l} hdepth hvalues := by
    have hbound : listDepth l ≤ maxNestingDepth - depth := listDepth_le.mpr fun v hv => by
      have := (hvalues v hv).depth
      omega
    exact ⟨by unfold valueDepth; omega, .L fun v hv => (hvalues v hv).named⟩

theorem decodeAttributes_collected {P : Nat → AttributeValue → Prop} (rule : DecodeRule P) :
    (map : List (Text × Json)) → {nested item : Fields} → Collected (P 1) nested →
      decodeAttributes nested map = .ok item → Collected (P 1) item
  | [], _, _, hnested, h => by
      unfold decodeAttributes at h
      cases h
      exact hnested
  | (k, v) :: rest, _, _, hnested, h => by
      unfold decodeAttributes at h
      obtain ⟨_, hname, h⟩ := bind_eq_ok.mp h
      obtain ⟨value, hvalue, h⟩ := bind_eq_ok.mp h
      exact decodeAttributes_collected rule rest
        (hnested.insert (checkAttributeName_ok.mp hname) (rule.value _ _ v hvalue)) h

theorem decodeItem_named (h : decodeItem map = .ok item) : ItemNamed item :=
  have hplaced := decodeAttributes_collected decodeRule_placed map Collected.nil h
  ⟨hplaced.names, fun f hf => (hplaced.values f hf).named⟩

theorem decodeItem_wellFormed (h : decodeItem map = .ok item) (hsets : ∀ f ∈ item, f.2.NumericSets) :
    ItemWellFormed item := by
  have hdecoded := decodeAttributes_collected decodeRule_decoded map Collected.nil h
  have hplaced := decodeAttributes_collected decodeRule_placed map Collected.nil h
  refine ⟨⟨hdecoded.ascending, fun f hf => hdecoded.values f hf (hsets f hf)⟩, fieldsDepth_le.mpr fun f hf => ?_⟩
  have := (hplaced.values f hf).depth
  omega

/-- An item whose names the wire takes comes back from the wire as it was, and what the wire returns is well
formed with such names, but for the members of number sets, which it does not look at. -/
theorem item_wire_roundTrip : (∀ item : Item, ItemWellFormed item → ItemNamed item →
    decodeItem (encodeItem item) = .ok item) ∧
      ∀ (map : List (Text × Json)) (item : Item), decodeItem map = .ok item →
        ItemNamed item ∧ ((∀ f ∈ item, f.2.NumericSets) → ItemWellFormed item) :=
  ⟨fun _ hwf hnamed => decodeItem_encode hwf hnamed, fun _ _ h =>
    ⟨decodeItem_named h, decodeItem_wellFormed h⟩⟩

def sampleNested : Item :=
  [("k".toList, .M [("b".toList, .BS [[0], [255, 1]]), ("n".toList, .N "10".toList)]),
    ("l".toList, .L [.SS ["x".toList], .null])]

theorem sampleNested_wellFormed : ItemWellFormed sampleNested where
  fields :=
    { names := by decide
      values := by
        simp only [sampleNested, forall_mem_cons, not_mem_nil, false_implies, implies_true, and_true]
        refine ⟨.M (by decide) ?_, .L ?_⟩
        · simp only [forall_mem_cons, not_mem_nil, false_implies, implies_true, and_true]
          exact ⟨.BS (by decide) (by decide), .N (by decide +kernel)⟩
        · simp only [forall_mem_cons, not_mem_nil, false_implies, implies_true, and_true]
          exact ⟨.SS (by decide) (by decide), .null⟩ }
  depth := by decide

theorem sampleNested_named : ItemNamed sampleNested where
  names := by decide
  values := by
    simp only [sampleNested, forall_mem_cons, not_mem_nil, false_implies, implies_true, and_true]
    refine ⟨.M (by decide) ?_, .L ?_⟩
    · simp only [forall_mem_cons, not_mem_nil, false_implies, implies_true, and_true]
      exact ⟨.BS _, .N _⟩
    · simp only [forall_mem_cons, not_mem_nil, false_implies, implies_true, and_true]
      exact ⟨.SS _, .null⟩

theorem item_wire_roundTrip_nested : decodeItem (encodeItem sampleNested) = .ok sampleNested ∧
    ItemNamed sampleNested :=
  have h := item_wire_roundTrip.1 sampleNested sampleNested_wellFormed sampleNested_named
  ⟨h, (item_wire_roundTrip.2 _ _ h).1⟩

/-- The wire refuses the empty name of a well-formed item, and takes a number set whose member is no number. -/
theorem item_wire_names_and_numbers :
    (ItemWellFormed [([], .null)] ∧ (decodeItem (encodeItem [([], .null)])).isOk = false) ∧
      ∃ item, decodeItem [("s".toList, .object [("NS".toList, .array [.string "x".toList])])] = .ok item ∧
      ¬ ItemWellFormed item := by
  refine ⟨⟨⟨⟨by decide, ?_⟩, by decide⟩, by decide⟩,
    [("s".toList, .NS ["x".toList])], by decide, fun hwf => ?_⟩
  · intro f hf
    rw [mem_singleton.mp hf]
    exact .null
  · cases hwf.fields.values _ mem_cons_self with
    | NS _ _ hnumbers => exact absurd (hnumbers _ mem_cons_self) (by decide +kernel)

end AnimusDb.Items
