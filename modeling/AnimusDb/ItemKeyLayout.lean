import AnimusDb.ItemIndex
import AnimusDb.ItemNumKeyOrder
import Mathlib.Data.Option.Defs

/-! The layout of stored keys: escaped components one after the other, the ranges that scans of one partition
read, and the parsers that take keys apart again. -/

open RustText List Option

namespace AnimusDb.Items

variable {a b x : List UInt8}

theorem escape_nil : escape [] = [0x00, 0x00] := rfl

theorem escape_cons (c : UInt8) (a : List UInt8) :
    escape (c :: a) = if c = 0x00 then 0x00 :: 0x01 :: escape a else c :: escape a := by
  rw [escape, escapeBytes]
  split_ifs with hc
  · rw [hc]
    rfl
  · rfl

theorem escape_lt_escape : escape a < escape b ↔ a < b := by
  induction a generalizing b with
  | nil =>
    cases b with
    | nil => simp [List.lt_irrefl]
    | cons d b =>
      rw [escape_nil, escape_cons]
      split_ifs with hd
      · simp [cons_lt_cons_iff]
      · simp [cons_lt_cons_iff, UInt8.pos_iff_ne_zero.mpr hd]
  | cons c a ih =>
    cases b with
    | nil =>
      rw [escape_nil, escape_cons]
      split_ifs with hc
      · simp [cons_lt_cons_iff]
      · simp [cons_lt_cons_iff, hc]
    | cons d b =>
      rw [escape_cons, escape_cons, cons_lt_cons_iff]
      split_ifs with hc hd hd
      · simp [ih, hc, hd]
      · simp [cons_lt_cons_iff, hc, UInt8.pos_iff_ne_zero.mpr hd]
      · simp [cons_lt_cons_iff, hc, hd]
      · simp [cons_lt_cons_iff, ih]

/-- An escaped component at the front of a key is the key's own first component. -/
theorem escape_prefix_append : escape a <+: escape b ++ x ↔ a = b := by
  constructor
  · rintro ⟨rest, hrest⟩
    exact (escape_append_inj hrest).1
  · rintro rfl
    exact prefix_append _ _

variable (ihash : AttributeValue)

/-- Peel one escaped segment off the front; `none` if it never ends or holds a zero that is not escaped. -/
def peelEscaped : List UInt8 → Option (List UInt8 × List UInt8)
  | [] | [_] => none
  | b :: c :: rest =>
    if b ≠ 0x00 then (peelEscaped (c :: rest)).map fun (out, rest) => (b :: out, rest)
    else if c = 0x01 then (peelEscaped rest).map fun (out, rest) => (0x00 :: out, rest)
    else if c = 0x00 then some ([], rest)
    else none

theorem peelEscaped_cons {b : UInt8} (hb : b ≠ 0x00) (rest : List UInt8) :
    peelEscaped (b :: rest) = (peelEscaped rest).map fun (out, rest) => (b :: out, rest) := by
  cases rest with
  | nil => rfl
  | cons c rest => rw [peelEscaped, if_pos hb]

theorem peelEscaped_zero_one (rest : List UInt8) :
    peelEscaped (0x00 :: 0x01 :: rest) = (peelEscaped rest).map fun (out, rest) => (0x00 :: out, rest) := by
  rw [peelEscaped, if_neg (by decide), if_pos rfl]

theorem peelEscaped_escape (a x : List UInt8) : peelEscaped (escape a ++ x) = some (a, x) := by
  induction a with
  | nil => rfl
  | cons c a ih =>
    rw [escape_cons]
    split_ifs with hc
    · rw [cons_append, cons_append, peelEscaped_zero_one, ih, hc]
      rfl
    · rw [cons_append, peelEscaped_cons hc, ih]
      rfl

/-- Nothing else is peeled. -/
theorem eq_of_peelEscaped {key a x : List UInt8} (h : peelEscaped key = some (a, x)) :
    key = escape a ++ x := by
  induction key using peelEscaped.induct generalizing a x with
  | case1 => cases h
  | case2 b => cases h
  | case3 b c rest hb ih =>
    rw [peelEscaped_cons hb] at h
    obtain ⟨⟨out, x'⟩, hrest, heq⟩ := map_eq_some_iff.mp h
    cases heq
    rw [escape_cons, if_neg hb, cons_append, ← ih hrest]
  | case4 b rest hb ih =>
    obtain rfl : b = 0x00 := not_ne_iff.mp hb
    rw [peelEscaped_zero_one] at h
    obtain ⟨⟨out, x'⟩, hrest, heq⟩ := map_eq_some_iff.mp h
    cases heq
    rw [escape_cons, if_pos rfl, cons_append, cons_append, ← ih hrest]
  | case5 b rest hb =>
    obtain rfl : b = 0x00 := not_ne_iff.mp hb
    cases h
    rfl
  | case6 b c rest hb hc hc' =>
    rw [peelEscaped, if_neg hb, if_neg hc, if_neg hc'] at h
    cases h

def fromUtf8 (bytes : List UInt8) : Option Text := bytes.toByteArray.utf8Decode?.map Array.toList

theorem fromUtf8_utf8 (s : Text) : fromUtf8 (utf8 s) = some s := by
  have hdecode : (utf8 s).toByteArray.utf8Decode? = some s.toArray := utf8Decode?_utf8Encode
  rw [fromUtf8, hdecode]
  simp

/-- The base key an LSI row points at. -/
structure LsiRowRef where
  basePk : List UInt8
  index : Text
  altSort : List UInt8
  baseSk : List UInt8

def parseLsiRowKey (key : List UInt8) : Option LsiRowRef := do
  let (basePk, rest) ← peelEscaped key
  let (index, rest) ← peelEscaped rest
  let (altSort, baseSk) ← peelEscaped rest
  let index ← fromUtf8 index
  return ⟨basePk, index, altSort, baseSk⟩

/-- The key of a row of a global index: its hash value, its sort value if the index has one, and the base key. -/
def gsiRowKey (isort : Option AttributeValue) (basePk : AttributeValue) (baseSk : Option AttributeValue) :
    List UInt8 :=
  escape ihash.keyBytes ++ (isort.elim [] (fun v => escape v.keyBytes) ++
    (escape basePk.keyBytes ++ sortBytes baseSk))

/-- The base key a GSI row points at. -/
structure GsiRowRef where
  hash : List UInt8
  sort : Option (List UInt8)
  basePk : List UInt8
  baseSk : List UInt8

def parseGsiRowKey (key : List UInt8) (composite : Bool) : Option GsiRowRef := do
  let (hash, rest) ← peelEscaped key
  let (sort, rest) ←
    if composite then (peelEscaped rest).map fun (s, rest) => (some s, rest) else some (none, rest)
  let (basePk, baseSk) ← peelEscaped rest
  return ⟨hash, sort, basePk, baseSk⟩

/-- The types a key attribute may be declared with. -/
inductive KeyType where
  | S
  | N
  | B

/-- A value of a declared key type, as the wire lets it in. -/
def AttributeValue.IsKey : KeyType → AttributeValue → Prop
  | .S, .S _ => True
  | .N, .N n => (encodeChecked n).isSome
  | .B, .B _ => True
  | _, _ => False

/-- Two values that are one key: the same string or bytes, or two texts of one number. -/
def SameKey : AttributeValue → AttributeValue → Prop
  | .S s, .S t => s = t
  | .N a, .N b => ∃ p, Denotes a p ∧ Denotes b p
  | .B x, .B y => x = y
  | _, _ => False

theorem encode_of_encodeChecked {n : Text} {x : List UInt8} (h : encodeChecked n = some x) :
    encode n = some x := by
  unfold encodeChecked at h
  obtain ⟨⟨neg, e, ds⟩, -, h⟩ := bind_eq_some_iff.mp h
  dsimp only at h
  split_ifs at h
  exact h

theorem keyBytes_eq_iff {t : KeyType} {v w : AttributeValue} (hv : v.IsKey t) (hw : w.IsKey t) :
    v.keyBytes = w.keyBytes ↔ SameKey v w := by
  cases t <;> cases v <;> cases w <;> first | exact hv.elim | exact hw.elim | skip
  case S.S.S s t => exact ⟨utf8_injective, fun h => congrArg utf8 h⟩
  case N.N.N a b =>
    obtain ⟨x, hx⟩ := isSome_iff_exists.mp hv
    obtain ⟨y, hy⟩ := isSome_iff_exists.mp hw
    obtain ⟨⟨p, hp⟩, -⟩ := encodeChecked_denotes hx
    obtain ⟨⟨q, hq⟩, hunique⟩ := encodeChecked_denotes hy
    have hcompare := compare_encoded hx hy hp hq
    have hbytes : (AttributeValue.N a).keyBytes = x ∧ (AttributeValue.N b).keyBytes = y := by
      simp [AttributeValue.keyBytes, encode_of_encodeChecked hx, encode_of_encodeChecked hy]
    rw [hbytes.1, hbytes.2]
    constructor
    · intro h
      have hpq : p = q := compare_eq_iff_eq.mp (hcompare.symm.trans (Std.compare_eq_iff_eq.mpr h))
      exact ⟨p, hp, hpq ▸ hq⟩
    · rintro ⟨r, hr, hr'⟩
      exact Std.compare_eq_iff_eq.mp ((compare_encoded hx hy hr hr').trans (compare_eq_iff_eq.mpr rfl))
  case B.B.B x y => exact Iff.rfl

/-- Optional sort keys of one shape and type. -/
def SortKeys (t : KeyType) (sk sk' : Option AttributeValue) : Prop :=
  sk.isSome = sk'.isSome ∧ (∀ v ∈ sk, v.IsKey t) ∧ ∀ v ∈ sk', v.IsKey t

theorem sortBytes_eq_iff {t : KeyType} {sk sk' : Option AttributeValue} (h : SortKeys t sk sk') :
    sortBytes sk = sortBytes sk' ↔ Option.Rel SameKey sk sk' := by
  obtain ⟨hshape, hsk, hsk'⟩ := h
  cases sk with
  | none =>
    cases sk' with
    | none => exact ⟨fun _ => .none, fun _ => rfl⟩
    | some w => cases hshape
  | some v =>
    cases sk' with
    | none => cases hshape
    | some w =>
      refine (keyBytes_eq_iff (hsk v rfl) (hsk' w rfl)).trans ⟨.some, fun h => ?_⟩
      cases h with
      | some h => exact h

/-- The exclusive upper bound of the keys that start with a prefix: its last byte incremented. `none` where
the code panics. -/
def rangeEnd (start : List UInt8) : Option (List UInt8) :=
  match start.getLast? with
  | some last => if last = 0xFF then none else some (start.dropLast ++ [last + 1])
  | none => none

/-- A key between two bounds, the upper exclusive. -/
def Between (start stop key : List UInt8) : Prop := ¬ key < start ∧ key < stop

theorem between_snoc (last : UInt8) (hlast : last ≠ 0xFF) (start key : List UInt8) :
    Between (start ++ [last]) (start ++ [last + 1]) key ↔ start ++ [last] <+: key := by
  have hsucc : (last + 1).toNat = last.toNat + 1 := by
    have hne : last.toNat ≠ 255 := fun h => hlast (UInt8.toNat_inj.mp h)
    have hlt := last.toNat_lt
    rw [UInt8.toNat_add]
    exact Nat.mod_eq_of_lt (by simp; omega)
  induction start generalizing key with
  | nil =>
    cases key with
    | nil => simp [Between]
    | cons c key =>
      have hstep : ¬ c < last ∧ c < last + 1 ↔ last = c := by
        rw [UInt8.lt_iff_toNat_lt, UInt8.lt_iff_toNat_lt, hsucc, ← UInt8.toNat_inj]
        omega
      simp only [Between, nil_append, cons_lt_cons_iff, not_lt_nil, and_false, or_false,
        hstep, cons_prefix_cons, nil_prefix, and_true]
  | cons b start ih =>
    cases key with
    | nil => simp [Between]
    | cons c key =>
      rw [cons_append, cons_append, cons_prefix_cons]
      refine Iff.trans ?_ (and_congr_right fun _ => ih key)
      simp only [Between, cons_lt_cons_iff]
      by_cases hcb : b = c
      · subst hcb
        simp [UInt8.lt_irrefl]
      · have hcb' : ¬ c = b := fun h => hcb h.symm
        simp [hcb, hcb']

theorem between_rangeEnd {start stop key : List UInt8} (h : rangeEnd start = some stop) :
    Between start stop key ↔ start <+: key := by
  unfold rangeEnd at h
  cases hlast : start.getLast? with
  | none => simp [hlast] at h
  | some last =>
    rw [hlast] at h
    dsimp only at h
    obtain ⟨front, rfl⟩ := getLast?_eq_some_iff.mp hlast
    split_ifs at h with hff
    rw [dropLast_concat] at h
    cases h
    exact between_snoc last hff front key

/-- A prefix that ends with an escaped component has a range. -/
theorem rangeEnd_escape (front a : List UInt8) :
    rangeEnd (front ++ escape a) = some (front ++ (escapeBytes a ++ [0x00, 0x01])) := by
  have hsplit : front ++ escape a = (front ++ (escapeBytes a ++ [0x00])) ++ [0x00] := by
    simp [escape]
  rw [hsplit, rangeEnd, getLast?_concat]
  dsimp only
  rw [if_neg (by decide), dropLast_concat]
  simp

def basePartitionPrefix (pk : AttributeValue) : List UInt8 := escape pk.keyBytes

def lsiIndexPrefix (pk : AttributeValue) (index : Text) : List UInt8 :=
  escape pk.keyBytes ++ escape (utf8 index)

def gsiHashPrefix : List UInt8 := escape ihash.keyBytes

def gsiHashSortPrefix (isort : AttributeValue) : List UInt8 :=
  escape ihash.keyBytes ++ escape isort.keyBytes

end AnimusDb.Items
