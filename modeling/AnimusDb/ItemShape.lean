import AnimusDb.ItemNumKeyOrder
import AnimusDb.ItemValue
import Mathlib.Data.List.Sort
import Mathlib.Data.List.Destutter

/-! The shape of stored values: sets as sorted lists, sizes, nesting depth, and what makes an item well
formed. -/

open RustText
open List hiding set

namespace AnimusDb.Items

variable {α : Type} [Ord α] [DecidableEq α]

/-- `sort` and `dedup` of a vector. -/
def dedupSorted (items : List α) : List α :=
  (items.insertionSort fun a b => (compare a b).isLE).destutter (· ≠ ·)

/-- Sorted, de-duplicated union. -/
def unionSorted (a b : List α) : List α := dedupSorted (a ++ b)

/-- Sorted difference, `a` minus `b`. -/
def differenceSorted (a b : List α) : List α := a.filter fun x => !b.contains x

/-- Strictly ascending, hence without duplicates. -/
def Ascending (items : List α) : Prop := items.Pairwise fun a b => compare a b = .lt

instance (items : List α) : Decidable (Ascending items) :=
  inferInstanceAs (Decidable (items.Pairwise fun a b => compare a b = .lt))

theorem dedupSorted_ne_nil {items : List α} (h : items ≠ []) : dedupSorted items ≠ [] := by
  unfold dedupSorted
  rw [ne_eq, destutter_eq_nil]
  intro hnil
  exact h (perm_nil.mp (hnil ▸ (perm_insertionSort _ items).symm))

variable [Std.TransOrd α] [Std.LawfulEqOrd α]

theorem ascending_dedupSorted (items : List α) : Ascending (dedupSorted items) := by
  have htotal : Std.Total fun a b : α => ((compare a b).isLE = true) := by
    constructor
    intro a b
    rw [Std.OrientedOrd.eq_swap (a := b)]
    cases compare a b <;> simp
  have htrans : IsTrans α fun a b => ((compare a b).isLE = true) :=
    ⟨fun _ _ _ hab hbc => Std.TransCmp.isLE_trans hab hbc⟩
  have hsorted := (pairwise_insertionSort (fun a b : α => (compare a b).isLE = true) items).sublist
    (destutter_sublist (· ≠ ·) _)
  have hchain := isChain_destutter (· ≠ ·) (items.insertionSort fun a b => (compare a b).isLE)
  -- neighbours are in order and differ, so they ascend
  have hlt : (dedupSorted items).IsChain fun a b => compare a b = .lt := by
    rw [isChain_iff_getElem]
    intro i hi
    have hle := isChain_iff_getElem.mp hsorted.isChain i hi
    have hne := isChain_iff_getElem.mp hchain i hi
    change compare (dedupSorted items)[i] (dedupSorted items)[i + 1] = .lt
    change (compare (dedupSorted items)[i] (dedupSorted items)[i + 1]).isLE = true at hle
    change (dedupSorted items)[i] ≠ (dedupSorted items)[i + 1] at hne
    have hne' := fun h => hne (Std.LawfulEqOrd.eq_of_compare h)
    cases hcmp : compare (dedupSorted items)[i] (dedupSorted items)[i + 1] with
    | lt => rfl
    | eq => exact absurd hcmp hne'
    | gt => rw [hcmp] at hle; cases hle
  have : IsTrans α fun a b => compare a b = .lt := ⟨fun _ _ _ hab hbc => Std.TransCmp.lt_trans hab hbc⟩
  exact isChain_iff_pairwise.mp hlt

/-- The size of a number by its significant digits. -/
def numberSize (text : Text) : Nat :=
  let negative := text.head? == some '-'
  let digits := text.filter Char.isDigit
  let significant := (trimEndMatches '0' (trimStartMatches '0' digits)).length
  if significant = 0 then 1 else (significant + 1) / 2 + 1 + negative.toNat

mutual

def valueSize : AttributeValue → Nat
  | .S s => (utf8 s).length
  | .N n => numberSize n
  | .B b => b.length
  | .bool _ | .null => 1
  | .L items => 3 + listSize items
  | .M map => 3 + fieldsSize map
  | .SS set => (set.map fun s => (utf8 s).length).sum
  | .NS set => (set.map numberSize).sum
  | .BS set => (set.map length).sum

def listSize : List AttributeValue → Nat
  | [] => 0
  | v :: rest => valueSize v + 3 + listSize rest

def fieldsSize : List (Text × AttributeValue) → Nat
  | [] => 0
  | (k, v) :: rest => (utf8 k).length + valueSize v + 3 + fieldsSize rest

end

def itemSize (item : Item) : Nat :=
  (item.map fun field => (utf8 field.1).length + valueSize field.2).sum

def maxItemSizeBytes : Nat := 409600

mutual

def valueDepth : AttributeValue → Nat
  | .L items => 1 + listDepth items
  | .M map => 1 + fieldsDepth map
  | .S _ | .N _ | .B _ | .bool _ | .null | .SS _ | .NS _ | .BS _ => 1

/-- The depth of the deepest element, or zero. -/
def listDepth : List AttributeValue → Nat
  | [] => 0
  | v :: rest => max (valueDepth v) (listDepth rest)

def fieldsDepth : List (Text × AttributeValue) → Nat
  | [] => 0
  | (_, v) :: rest => max (valueDepth v) (fieldsDepth rest)

end

def itemDepth (item : Item) : Nat := fieldsDepth item

def maxNestingDepth : Nat := 32

/-- A text that the wire takes for a number. -/
def Accepted (n : Text) : Prop := (encodeChecked n).isSome

instance (n : Text) : Decidable (Accepted n) := inferInstanceAs (Decidable ((encodeChecked n).isSome = true))

/-- No two members denote the same number. -/
def ValueDistinct (members : List Text) : Prop :=
  members.Pairwise fun a b => ∀ p, Denotes a p → ¬ Denotes b p

/-- Every number is accepted, and every set is inhabited, ascending and without two members of the
same value, at any depth; maps are in the order of their names. -/
inductive AttributeValue.WellFormed : AttributeValue → Prop
  | S (s : Text) : WellFormed (.S s)
  | N {n : Text} (h : Accepted n) : WellFormed (.N n)
  | B (b : List UInt8) : WellFormed (.B b)
  | bool (b : Bool) : WellFormed (.bool b)
  | null : WellFormed .null
  | M {m : Fields} (hnames : Ascending (m.map Prod.fst)) (h : ∀ f ∈ m, WellFormed f.2) :
      WellFormed (.M m)
  | L {l : List AttributeValue} (h : ∀ v ∈ l, WellFormed v) : WellFormed (.L l)
  | SS {s : List Text} (hne : s ≠ []) (h : Ascending s) : WellFormed (.SS s)
  | NS {s : List Text} (hne : s ≠ []) (h : Ascending s) (hnumbers : ∀ n ∈ s, Accepted n)
      (hdistinct : ValueDistinct s) : WellFormed (.NS s)
  | BS {s : List (List UInt8)} (hne : s ≠ []) (h : Ascending s) : WellFormed (.BS s)

/-- The attributes are in the order of their names and well formed. -/
structure FieldsWellFormed (fields : Fields) : Prop where
  names : Ascending (fields.map Prod.fst)
  values : ∀ f ∈ fields, f.2.WellFormed

/-- A well-formed item: its attributes are, within the depth of the wire. -/
structure ItemWellFormed (item : Item) : Prop where
  fields : FieldsWellFormed item
  depth : itemDepth item ≤ maxNestingDepth

variable {v : AttributeValue} {fields : Fields} {name : Text}

section Maps

theorem names_insert (fields : Fields) (name : Text) (v : AttributeValue) :
    ∀ n ∈ (Fields.insert fields name v).map Prod.fst, n = name ∨ n ∈ fields.map Prod.fst := by
  induction fields with
  | nil => simp [Fields.insert]
  | cons field rest ih =>
    obtain ⟨k, w⟩ := field
    intro n hn
    unfold Fields.insert at hn
    split at hn
    · simpa using hn
    · exact .inr hn
    · rw [map_cons, mem_cons] at hn
      rcases hn with rfl | hn
      · exact .inr mem_cons_self
      · rcases ih n hn with h | h
        · exact .inl h
        · exact .inr (mem_cons_of_mem _ h)

theorem Ascending.insert (h : Ascending (fields.map Prod.fst)) (name : Text)
    (v : AttributeValue) : Ascending ((Fields.insert fields name v).map Prod.fst) := by
  induction fields with
  | nil => exact pairwise_singleton _ _
  | cons field rest ih =>
    obtain ⟨k, w⟩ := field
    obtain ⟨hhead, htail⟩ := pairwise_cons.mp h
    unfold Fields.insert
    split
    · rename_i hlt
      exact pairwise_cons.mpr ⟨forall_mem_cons.mpr ⟨hlt, fun n hn => Std.TransCmp.lt_trans hlt (hhead n hn)⟩, h⟩
    · exact h
    · rename_i hgt
      refine pairwise_cons.mpr ⟨fun n hn => ?_, ih htail⟩
      rcases names_insert rest name v n hn with rfl | hn
      · exact Std.OrientedCmp.lt_of_gt hgt
      · exact hhead n hn

theorem mem_insert {f : Text × AttributeValue} (h : f ∈ Fields.insert fields name v) :
    f.2 = v ∨ f ∈ fields := by
  induction fields with
  | nil =>
    rw [mem_singleton.mp h]
    exact .inl rfl
  | cons field rest ih =>
    obtain ⟨k, w⟩ := field
    unfold Fields.insert at h
    split at h
    · exact (mem_cons.mp h).imp_left (congrArg Prod.snd)
    · exact (mem_cons.mp h).imp (congrArg Prod.snd) (mem_cons_of_mem _)
    · rcases mem_cons.mp h with rfl | h
      · exact .inr mem_cons_self
      · exact (ih h).imp id (mem_cons_of_mem _)

variable (h : FieldsWellFormed fields)

include h

end Maps

end AnimusDb.Items
