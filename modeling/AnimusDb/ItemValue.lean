import AnimusDb.ItemNumKey
import Mathlib.Data.Prod.Lex
import Mathlib.Data.String.Basic

/-! Attribute values, items, and the bytes that stand for them in keys. Maps are lists of fields in
the order of their names. A stored item is live or deleted, with or without the stamp that decides between
regions. -/

open RustText List

namespace AnimusDb.Items

inductive AttributeValue where
  | S (s : Text)
  | N (n : Text)
  | B (b : List UInt8)
  | bool (b : Bool)
  | null
  | M (m : List (Text × AttributeValue))
  | L (l : List AttributeValue)
  | SS (members : List Text)
  | NS (members : List Text)
  | BS (members : List (List UInt8))

/-- The fields of a map, in the order of their names. -/
abbrev Fields := List (Text × AttributeValue)

/-- An item: a map from attribute name to value. -/
abbrev Item := Fields

mutual

def AttributeValue.decEq : (a b : AttributeValue) → Decidable (a = b)
  | .S s, .S t => decidable_of_iff (s = t) (by simp)
  | .N s, .N t => decidable_of_iff (s = t) (by simp)
  | .B s, .B t => decidable_of_iff (s = t) (by simp)
  | .bool s, .bool t => decidable_of_iff (s = t) (by simp)
  | .null, .null => .isTrue rfl
  | .M s, .M t => @decidable_of_iff _ (s = t) (by simp) (decEqFields s t)
  | .L s, .L t => @decidable_of_iff _ (s = t) (by simp) (decEqList s t)
  | .SS s, .SS t => decidable_of_iff (s = t) (by simp)
  | .NS s, .NS t => decidable_of_iff (s = t) (by simp)
  | .BS s, .BS t => decidable_of_iff (s = t) (by simp)
  | .S _, .N _ | .S _, .B _ | .S _, .bool _ | .S _, .null | .S _, .M _ | .S _, .L _ | .S _, .SS _
  | .S _, .NS _ | .S _, .BS _ => .isFalse (by simp)
  | .N _, .S _ | .N _, .B _ | .N _, .bool _ | .N _, .null | .N _, .M _ | .N _, .L _ | .N _, .SS _
  | .N _, .NS _ | .N _, .BS _ => .isFalse (by simp)
  | .B _, .S _ | .B _, .N _ | .B _, .bool _ | .B _, .null | .B _, .M _ | .B _, .L _ | .B _, .SS _
  | .B _, .NS _ | .B _, .BS _ => .isFalse (by simp)
  | .bool _, .S _ | .bool _, .N _ | .bool _, .B _ | .bool _, .null | .bool _, .M _ | .bool _, .L _
  | .bool _, .SS _ | .bool _, .NS _ | .bool _, .BS _ => .isFalse (by simp)
  | .null, .S _ | .null, .N _ | .null, .B _ | .null, .bool _ | .null, .M _ | .null, .L _
  | .null, .SS _ | .null, .NS _ | .null, .BS _ => .isFalse (by simp)
  | .M _, .S _ | .M _, .N _ | .M _, .B _ | .M _, .bool _ | .M _, .null | .M _, .L _ | .M _, .SS _
  | .M _, .NS _ | .M _, .BS _ => .isFalse (by simp)
  | .L _, .S _ | .L _, .N _ | .L _, .B _ | .L _, .bool _ | .L _, .null | .L _, .M _ | .L _, .SS _
  | .L _, .NS _ | .L _, .BS _ => .isFalse (by simp)
  | .SS _, .S _ | .SS _, .N _ | .SS _, .B _ | .SS _, .bool _ | .SS _, .null | .SS _, .M _
  | .SS _, .L _ | .SS _, .NS _ | .SS _, .BS _ => .isFalse (by simp)
  | .NS _, .S _ | .NS _, .N _ | .NS _, .B _ | .NS _, .bool _ | .NS _, .null | .NS _, .M _
  | .NS _, .L _ | .NS _, .SS _ | .NS _, .BS _ => .isFalse (by simp)
  | .BS _, .S _ | .BS _, .N _ | .BS _, .B _ | .BS _, .bool _ | .BS _, .null | .BS _, .M _
  | .BS _, .L _ | .BS _, .SS _ | .BS _, .NS _ => .isFalse (by simp)

def decEqList : (a b : List AttributeValue) → Decidable (a = b)
  | [], [] => .isTrue rfl
  | [], _ :: _ | _ :: _, [] => .isFalse (by simp)
  | v :: a, w :: b =>
    @decidable_of_iff _ (v = w ∧ a = b) (by simp) (@instDecidableAnd _ _ (AttributeValue.decEq v w) (decEqList a b))

def decEqFields : (a b : List (Text × AttributeValue)) → Decidable (a = b)
  | [], [] => .isTrue rfl
  | [], _ :: _ | _ :: _, [] => .isFalse (by simp)
  | (k, v) :: a, (l, w) :: b =>
    @decidable_of_iff _ ((k = l ∧ v = w) ∧ a = b) (by simp)
      (@instDecidableAnd _ _ (@instDecidableAnd _ _ inferInstance (AttributeValue.decEq v w)) (decEqFields a b))

end

instance : DecidableEq AttributeValue := AttributeValue.decEq

def Fields.get (fields : Fields) (name : Text) : Option AttributeValue :=
  match fields with
  | [] => none
  | (k, v) :: rest => if k = name then some v else Fields.get rest name

def Fields.insert (fields : Fields) (name : Text) (value : AttributeValue) : Fields :=
  match fields with
  | [] => [(name, value)]
  | (k, v) :: rest =>
    match compare name k with
    | .lt => (name, value) :: (k, v) :: rest
    | .eq => (k, value) :: rest
    | .gt => (k, v) :: Fields.insert rest name value

def Fields.remove (fields : Fields) (name : Text) : Fields := fields.filter fun f => f.1 ≠ name

def utf8 (s : Text) : List UInt8 := s.flatMap String.utf8EncodeChar

/-- The bytes of a value in a key. -/
def AttributeValue.keyBytes : AttributeValue → List UInt8
  | .S s => utf8 s
  | .N n => (encode n).getD (utf8 n)
  | .B b => b
  | .bool b => [if b then 1 else 0]
  | .null | .M _ | .L _ | .SS _ | .NS _ | .BS _ => []

/-- The bytes of `escape` before its terminator. -/
def escapeBytes : List UInt8 → List UInt8
  | [] => []
  | b :: rest => if b = 0x00 then b :: 0x01 :: escapeBytes rest else b :: escapeBytes rest

/-- Order-preserving, prefix-free escape. -/
def escape (bytes : List UInt8) : List UInt8 := escapeBytes bytes ++ [0x00, 0x00]

/-- The storage key of an item. -/
def storageKey (pk : AttributeValue) (sk : Option AttributeValue) : List UInt8 :=
  escape pk.keyBytes ++ sk.elim [] AttributeValue.keyBytes

theorem utf8_injective {s t : Text} (h : utf8 s = utf8 t) : s = t := by
  have hbytes : s.utf8Encode = t.utf8Encode := congrArg toByteArray h
  rw [← String.toByteArray_ofList, ← String.toByteArray_ofList, String.toByteArray_inj] at hbytes
  exact String.ofList_injective hbytes

/-- What follows an escaped string is determined, and the string with it. -/
theorem escape_append_inj {a b x y : List UInt8} (h : escape a ++ x = escape b ++ y) : a = b ∧ x = y := by
  unfold escape at h
  induction a generalizing b with
  | nil =>
    cases b with
    | nil => exact ⟨rfl, by simpa [escapeBytes] using h⟩
    | cons c b =>
      -- the terminator is two zeros, and an escaped zero is followed by a one
      unfold escapeBytes at h
      split at h
      · rename_i hc
        simp at h
      · rename_i hc
        simp only [nil_append, cons_append, cons.injEq] at h
        exact absurd h.1.symm hc
  | cons c a ih =>
    cases b with
    | nil =>
      unfold escapeBytes at h
      split at h
      · simp at h
      · rename_i hc
        simp only [nil_append, cons_append, cons.injEq] at h
        exact absurd h.1 hc
    | cons d b =>
      unfold escapeBytes at h
      split at h
      · rename_i hc
        split at h
        · rename_i hd
          simp only [cons_append, cons.injEq] at h
          obtain ⟨rfl, rfl⟩ := ih h.2.2
          exact ⟨by rw [hc, hd], rfl⟩
        · rename_i hd
          simp only [cons_append, cons.injEq] at h
          exact absurd (h.1.symm.trans hc) hd
      · rename_i hc
        split at h
        · rename_i hd
          simp only [cons_append, cons.injEq] at h
          exact absurd (h.1.trans hd) hc
        · simp only [cons_append, cons.injEq] at h
          obtain ⟨rfl, rfl⟩ := ih h.2
          exact ⟨by rw [h.1], rfl⟩

/-- The cross-region last-writer-wins stamp of an item. -/
structure MrecVersion where
  wallMs : Nat
  logical : Nat
  regionId : Nat
deriving DecidableEq

namespace MrecVersion

def zero : MrecVersion := ⟨0, 0, 0⟩

/-- The order of the fields as declared. -/
def toLexTriple (v : MrecVersion) : Nat ×ₗ Nat ×ₗ Nat := toLex (v.wallMs, toLex (v.logical, v.regionId))

theorem toLexTriple_injective : Function.Injective toLexTriple := by
  rintro ⟨w, l, g⟩ ⟨w', l', g'⟩ h
  obtain ⟨rfl, hrest⟩ := Prod.mk.inj h
  cases hrest
  rfl

instance : LinearOrder MrecVersion := LinearOrder.lift' toLexTriple toLexTriple_injective

theorem lt_iff {a b : MrecVersion} : a < b ↔ a.wallMs < b.wallMs ∨ (a.wallMs = b.wallMs ∧
      (a.logical < b.logical ∨ (a.logical = b.logical ∧ a.regionId < b.regionId))) := by
  change toLexTriple a < toLexTriple b ↔ _
  simp only [toLexTriple, Prod.Lex.toLex_lt_toLex]

def logicalMax : Nat := 2 ^ 32 - 1

def wallMax : Nat := 2 ^ 64 - 1

/-- The stamp of a local write over the stored stamp, at the writer's wall clock. -/
def nextLocal (stored : Option MrecVersion) (wallMs regionId : Nat) : MrecVersion :=
  let s := stored.getD zero
  if s.wallMs < wallMs then ⟨wallMs, 0, regionId⟩
  else if s.logical < logicalMax then ⟨s.wallMs, s.logical + 1, regionId⟩
  else ⟨min (s.wallMs + 1) wallMax, 0, regionId⟩

/-- A replicated write is applied only over an older stamp. -/
def supersedes (v : MrecVersion) (stored : Option MrecVersion) : Bool := stored.getD zero < v

end MrecVersion

/-- The stored form of an item. -/
inductive StoredItem where
  | item (item : Item)
  | tombstone
  | versionedItem (item : Item) (ver : MrecVersion)
  | versionedTombstone (ver : MrecVersion) (pk sk : Option AttributeValue)

/-- The JSON text of a stored item, as the serialiser writes and reads it. -/
structure StoredCodec where
  toVec : StoredItem → List UInt8
  fromSlice : List UInt8 → Option StoredItem

variable (codec : StoredCodec)

def isAsciiWhitespace (b : UInt8) : Bool := b = 0x20 || b = 0x09 || b = 0x0a || b = 0x0c || b = 0x0d

/-- The version of a stored encoding, from its first byte: a brace or a quote is version 1. -/
def storedItemVersion (bytes : List UInt8) : Option Nat :=
  match bytes.find? fun b => !isAsciiWhitespace b with
  | some b => if b = 0x7b || b = 0x22 then some 1 else none
  | none => none

def encodeStoredItem (item : Item) : List UInt8 := codec.toVec (.item item)

def encodeTombstone : List UInt8 := codec.toVec .tombstone

def encodeStoredItemVersioned (item : Item) (ver : MrecVersion) : List UInt8 :=
  codec.toVec (.versionedItem item ver)

def encodeTombstoneVersionedKeyed (ver : MrecVersion) (pk : AttributeValue) (sk : Option AttributeValue) :
    List UInt8 := codec.toVec (.versionedTombstone ver (some pk) sk)

/-- The item and stamp of a stored row; `none` for bytes that do not decode. -/
def decodeStoredItemVersioned (bytes : List UInt8) : Option (Option Item × Option MrecVersion) := do
  let stored ← if storedItemVersion bytes = some 1 then codec.fromSlice bytes else none
  match stored with
  | .item item => some (some item, none)
  | .tombstone => some (none, none)
  | .versionedItem item ver => some (some item, some ver)
  | .versionedTombstone ver _ _ => some (none, some ver)

end AnimusDb.Items
