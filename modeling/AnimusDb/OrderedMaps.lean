import Mathlib.Data.List.Nodup
import Mathlib.Data.List.Pairwise
import Mathlib.Data.List.Perm.Basic
import Mathlib.Data.List.Sort
import Mathlib.Order.Lattice

/-! Finite maps: lists in the strict order of a key, and the ordered maps and sets of the standard library. -/

namespace OrderedList

open List

variable {α β : Type} [LinearOrder β] (key : α → β)

/-- Strictly ascending in the key. -/
def Ordered (items : List α) : Prop := items.Pairwise fun a b => key a < key b

/-- The item under a key. -/
def lookup (k : β) (items : List α) : Option α := items.find? fun a => decide (key a = k)

/-- Put an item under its key; `pick old new` stands where the key is taken. -/
def upsert (pick : α → α → α) (a : α) : List α → List α
  | [] => [a]
  | b :: bs =>
    if key a < key b then a :: b :: bs
    else if key b < key a then b :: upsert pick a bs
    else pick b a :: bs

instance (items : List α) : Decidable (Ordered key items) :=
  inferInstanceAs (Decidable (items.Pairwise fun a b => key a < key b))

variable {key}

theorem Ordered.nil : Ordered key [] := List.Pairwise.nil

variable {items : List α}

theorem Ordered.filter (h : Ordered key items) (p : α → Bool) : Ordered key (items.filter p) :=
  h.sublist filter_sublist

/-- An ordered list has one item for a key. -/
theorem Ordered.eq_of_key (h : Ordered key items) {a b : α} (ha : a ∈ items) (hb : b ∈ items)
    (hkey : key a = key b) : a = b := by
  by_contra hne
  have hsymm : Std.Symm fun a b : α => key a ≠ key b := ⟨fun _ _ => Ne.symm⟩
  exact (h.imp fun hlt => hlt.ne).forall ha hb hne hkey

theorem Ordered.nodup (h : Ordered key items) : items.Nodup :=
  h.imp fun hlt heq => hlt.ne (congrArg key heq)

/-- Ordered lists with the same members are equal. -/
theorem Ordered.ext {others : List α} (h : Ordered key items) (h' : Ordered key others)
    (hmem : ∀ a, a ∈ items ↔ a ∈ others) : items = others := by
  have hperm := (perm_ext_iff_of_nodup h.nodup h'.nodup).mpr hmem
  refine hperm.eq_of_pairwise ?_ h h'
  intro a b _ _ hab hba
  exact absurd hba hab.asymm

theorem lookup_eq_some (h : Ordered key items) {k : β} {a : α} :
    lookup key k items = some a ↔ a ∈ items ∧ key a = k := by
  constructor
  · intro hfind
    exact ⟨mem_of_find?_eq_some hfind, by simpa using find?_some hfind⟩
  · rintro ⟨ha, rfl⟩
    obtain ⟨b, hb⟩ : ∃ b, lookup key (key a) items = some b := by
      rw [← Option.isSome_iff_exists, lookup, find?_isSome]
      exact ⟨a, ha, by simp⟩
    have hkey : key b = key a := by simpa using find?_some hb
    rw [hb, h.eq_of_key (mem_of_find?_eq_some hb) ha hkey]

theorem lookup_eq_none {k : β} : lookup key k items = none ↔ ∀ a ∈ items, key a ≠ k := by
  simp [lookup]

variable {pick : α → α → α} {a : α}

/-- An upsert replaces what stood under its key. -/
theorem mem_upsert (h : Ordered key items) {x : α} : x ∈ upsert key pick a items ↔
      (x ∈ items ∧ key x ≠ key a) ∨ x = (lookup key (key a) items).elim a (pick · a) := by
  induction items with
  | nil => simp [upsert, lookup]
  | cons b bs ih =>
    have hrest := ih h.of_cons
    have hhead : ∀ c ∈ bs, key b < key c := (pairwise_cons.mp h).1
    unfold upsert
    split_ifs with hab hba
    · -- the new key is below every key of the list
      have hbelow : ∀ c ∈ b :: bs, key a <
        key c := forall_mem_cons.mpr ⟨hab, fun c hc => hab.trans (hhead c hc)⟩
      have hx := hbelow x
      rw [lookup_eq_none.mpr fun c hc => (hbelow c hc).ne', Option.elim_none, mem_cons]
      grind
    · have hlook : lookup key (key a) (b :: bs) = lookup key (key a) bs := by
        simp [lookup, hba.ne]
      have hb : x = b → key x ≠ key a := fun heq => heq ▸ hba.ne
      rw [hlook, mem_cons, hrest, mem_cons]
      grind
    · have hkey : key b = key a := le_antisymm (not_lt.mp hab) (not_lt.mp hba)
      have hlook : lookup key (key a) (b :: bs) = some b := by simp [lookup, hkey]
      have hb : x = b → key x = key a := fun heq => heq ▸ hkey
      have hx : x ∈ bs → key x ≠ key a := fun hx => hkey ▸ (hhead x hx).ne'
      rw [hlook, Option.elim_some, mem_cons, mem_cons]
      grind

theorem key_picked (h : Ordered key items) (hpick : ∀ b ∈ items, key b = key a → key (pick b a) = key a) :
    key ((lookup key (key a) items).elim a (pick · a)) = key a := by
  cases hfind : lookup key (key a) items with
  | none => rfl
  | some b =>
    obtain ⟨hb, hkey⟩ := (lookup_eq_some h).mp hfind
    exact hpick b hb hkey

theorem Ordered.upsert (h : Ordered key items) (hpick : ∀ b ∈ items, key b = key a → key (pick b a) = key a) :
    Ordered key (upsert key pick a items) := by
  induction items with
  | nil => exact pairwise_singleton _ _
  | cons b bs ih =>
    have hhead : ∀ c ∈ bs, key b < key c := (pairwise_cons.mp h).1
    unfold OrderedList.upsert
    split_ifs with hab hba
    · exact pairwise_cons.mpr ⟨forall_mem_cons.mpr ⟨hab, fun c hc => hab.trans (hhead c hc)⟩, h⟩
    · refine pairwise_cons.mpr ⟨?_, ih h.of_cons fun d hd => hpick d (mem_cons_of_mem _ hd)⟩
      intro c hc
      rcases (mem_upsert h.of_cons).mp hc with ⟨hc, -⟩ | rfl
      · exact hhead c hc
      · rwa [key_picked h.of_cons fun d hd => hpick d (mem_cons_of_mem _ hd)]
    · have hkey : key b = key a := le_antisymm (not_lt.mp hab) (not_lt.mp hba)
      refine pairwise_cons.mpr ⟨?_, h.of_cons⟩
      intro c hc
      rw [hpick b mem_cons_self hkey, ← hkey]
      exact hhead c hc

/-- An upsert changes the lookup of its own key only. -/
theorem lookup_upsert (h : Ordered key items) (hpick : ∀ b ∈ items, key b = key a → key (pick b a) = key a)
    (k : β) : lookup key k (upsert key pick a items) =
      if k = key a then some ((lookup key k items).elim a (pick · a)) else lookup key k items := by
  have hordered := h.upsert hpick
  split_ifs with hk
  · subst hk
    rw [lookup_eq_some hordered, mem_upsert h]
    exact ⟨.inr rfl, key_picked h hpick⟩
  · cases hfind : lookup key k items with
    | none =>
      rw [lookup_eq_none]
      intro x hx hkey
      rcases (mem_upsert h).mp hx with ⟨hx, -⟩ | rfl
      · exact lookup_eq_none.mp hfind x hx hkey
      · exact hk (hkey.symm.trans (key_picked h hpick))
    | some b =>
      obtain ⟨hb, hkey⟩ := (lookup_eq_some h).mp hfind
      rw [lookup_eq_some hordered, mem_upsert h]
      exact ⟨.inl ⟨hb, fun heq => hk (hkey.symm.trans heq)⟩, hkey⟩

/-- Overwrite what stood under the key. -/
def insert (key : α → β) (a : α) (items : List α) : List α := upsert key (fun _ new => new) a items

theorem mem_insert (h : Ordered key items) {a x : α} :
    x ∈ insert key a items ↔ x = a ∨ (x ∈ items ∧ key x ≠ key a) := by
  rw [insert, mem_upsert h]
  cases lookup key (key a) items <;> simp [or_comm]

theorem Ordered.insert (h : Ordered key items) (a : α) : Ordered key (insert key a items) :=
  h.upsert fun _ _ _ => rfl

variable {κ : Type} [LinearOrder κ] (f : α → κ) (m : κ)

theorem init_le_foldl_max : m ≤ items.foldl (fun m a => max m (f a)) m := by
  induction items generalizing m with
  | nil => exact le_rfl
  | cons a items ih => exact (le_max_left _ _).trans (ih (max m (f a)))

/-- A running maximum is above every item. -/
theorem le_foldl_max {a : α} (ha : a ∈ items) : f a ≤ items.foldl (fun m a => max m (f a)) m := by
  induction items generalizing m with
  | nil => cases ha
  | cons b items ih =>
    rcases mem_cons.mp ha with rfl | ha
    · exact (le_max_right _ _).trans (init_le_foldl_max f (max m (f a)))
    · exact ih (max m (f b)) ha

theorem foldl_min_le {a : α} (ha : a ∈ items) : items.foldl (fun m a => min m (f a)) m ≤ f a :=
  le_foldl_max (κ := κᵒᵈ) f m ha

theorem foldl_max_le {items : List κ} {m bound : κ} (hitems : ∀ a ∈ items, a ≤ bound) (hm : m ≤ bound) :
    items.foldl max m ≤ bound := by
  induction items generalizing m with
  | nil => exact hm
  | cons a items ih =>
    exact ih (fun b hb => hitems b (mem_cons_of_mem _ hb)) (max_le hm (hitems a mem_cons_self))

end OrderedList

namespace OrderedMaps

abbrev OrdMap (κ α : Type) [Ord κ] := Std.ExtTreeMap κ α compare

abbrev OrdSet (κ : Type) [Ord κ] := Std.ExtTreeSet κ compare

section Pairs

variable {κ ι : Type} [Ord κ] [Ord ι]

/-- Pairs are ordered by the first component, then the second. -/
scoped instance pairOrd : Ord (κ × ι) := lexOrd

scoped instance pairTransOrd [Std.TransOrd κ] [Std.TransOrd ι] : Std.TransOrd (κ × ι) :=
  inferInstanceAs (Std.TransCmp (compareLex (compareOn Prod.fst) (compareOn Prod.snd)))

scoped instance pairLawfulEqOrd [Std.LawfulEqOrd κ] [Std.LawfulEqOrd ι] : Std.LawfulEqOrd (κ × ι) where
  compare_self {a} := by
    change (compare a.1 a.1).then (compare a.2 a.2) = .eq
    rw [Std.ReflOrd.compare_self, Std.ReflOrd.compare_self]
    rfl
  eq_of_compare {a b} h := by
    change (compare a.1 b.1).then (compare a.2 b.2) = .eq at h
    rw [Ordering.then_eq_eq] at h
    exact Prod.ext (Std.LawfulEqOrd.eq_of_compare h.1) (Std.LawfulEqOrd.eq_of_compare h.2)

end Pairs

variable {κ α : Type} [Ord κ] [Std.TransOrd κ] (m : OrdMap κ α)

theorem values_eq : m.values = m.toList.map Prod.snd := by
  have hvalues : m.values = m.foldr (fun _ v rest => v :: rest) [] := rfl
  rw [hvalues, Std.ExtTreeMap.foldr_eq_foldr_toList, List.map_eq_foldr]

theorem contains_eq (k : κ) : m.contains k = m[k]?.isSome := Std.ExtTreeMap.contains_eq_isSome_getElem?

variable [Std.LawfulEqOrd κ]

theorem get_filter (p : κ → α → Bool) (a : κ) : (m.filter p)[a]? = m[a]?.filter (p a) := by
  rw [Std.ExtTreeMap.getElem?_filter]
  simp

variable [DecidableEq κ]

/-- A lookup sees of an update only the key it names. -/
theorem get_insert (k a : κ) (v : α) : (m.insert k v)[a]? = if k = a then some v else m[a]? := by
  simp [Std.ExtTreeMap.getElem?_insert]

theorem get_erase (k a : κ) : (m.erase k)[a]? = if k = a then none else m[a]? := by
  simp [Std.ExtTreeMap.getElem?_erase]

omit [Std.LawfulEqOrd κ] in
/-- Setting several keys to one row. -/
theorem foldl_set_get {β : Type} {row : Option α} {f : OrdMap κ α → β → OrdMap κ α} (g : β → κ)
    (hf : ∀ map b a, (f map b)[a]? = if g b = a then row else map[a]?) (bs : List β) (a : κ)
    (map : OrdMap κ α) : (bs.foldl f map)[a]? = if a ∈ bs.map g then row else map[a]? := by
  induction bs generalizing map with
  | nil => simp
  | cons b rest ih =>
    rw [List.foldl_cons, ih, hf, List.map_cons]
    by_cases ha : g b = a
    · simp [ha]
    · simp [ha, Ne.symm ha]

theorem foldl_erase_get (keys : List κ) (a : κ) (map : OrdMap κ α) :
    (keys.foldl (fun map k => map.erase k) map)[a]? = if a ∈ keys then none else map[a]? := by
  simpa using foldl_set_get (fun k => k) (fun _ _ _ => get_erase ..) keys a map

end OrderedMaps
