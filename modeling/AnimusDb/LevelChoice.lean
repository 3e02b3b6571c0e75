import Mathlib.Data.List.Induction
import Mathlib.Data.List.Nodup
import Mathlib.Data.List.Perm.Subperm

/-! Choosing from a pool one element after the other, each from the class with the fewest chosen so far: no
choice of as many elements of the pool has a smaller largest class. -/

open List

namespace LevelChoice

variable {α β : Type}

/-- An item of the least measure among those that pass, or none if none passes. -/
def Least (passes : β → Bool) (measure : β → Nat) (items : List β) : Option β → Prop
  | none => ∀ d ∈ items, passes d = false
  | some best => passes best = true ∧ ∀ d ∈ items, passes d = true → measure best ≤ measure d

theorem least_foldl (passes : β → Bool) (measure : β → Nat) (items : List β) :
    Least passes measure items (items.foldl (fun best d =>
      if passes d && best.all (fun b => measure d < measure b) then some d else best) none) := by
  induction items using reverseRecOn with
  | nil => exact fun d hd => absurd hd not_mem_nil
  | append_singleton items d ih =>
    rw [foldl_append, foldl_cons, foldl_nil]
    generalize items.foldl _ none = best at ih ⊢
    unfold Least at ih ⊢
    cases best with
    | none => grind
    | some b => grind

variable [BEq β] {dom : α → β} {pool chosen : List α}

/-- How many of the chosen elements lie in a class. -/
def tally (dom : α → β) (chosen : List α) (d : β) : Nat := (chosen.map dom).count d

theorem tally_append_singleton (node : α) (d : β) :
    tally dom (chosen ++ [node]) d = tally dom chosen d + if dom node == d then 1 else 0 := by
  simp [tally, count_singleton]

/-- The class of a chosen element has at most one more than any class that still has a free one. -/
structure Levelled (dom : α → β) (pool chosen : List α) : Prop where
  nodup : chosen.Nodup
  subset : chosen ⊆ pool
  level : ∀ b ∈ chosen, ∀ a ∈ pool, a ∉ chosen → tally dom chosen (dom b) ≤ tally dom chosen (dom a) + 1

namespace Levelled

theorem nil : Levelled dom pool [] := ⟨nodup_nil, nil_subset _, fun _ hb => absurd hb not_mem_nil⟩

variable (h : Levelled dom pool chosen)

include h

theorem of_perm {other : List α} (hperm : chosen ~ other) : Levelled dom pool other := by
  have htally : tally dom other = tally dom chosen := funext fun d => ((hperm.map dom).count_eq d).symm
  refine ⟨hperm.nodup_iff.mp h.nodup, fun b hb => h.subset (hperm.mem_iff.mpr hb), fun b hb a ha hfree => ?_⟩
  rw [htally]
  exact h.level b (hperm.mem_iff.mpr hb) a ha fun hin => hfree (hperm.mem_iff.mp hin)

variable [LawfulBEq β]

/-- Choosing a free element of a least class keeps the choice level. -/
theorem append_singleton {node : α} (hpool : node ∈ pool) (hnew : node ∉ chosen)
    (hleast : ∀ a ∈ pool, a ∉ chosen → tally dom chosen (dom node) ≤ tally dom chosen (dom a)) :
    Levelled dom pool (chosen ++ [node]) := by
  refine ⟨h.nodup.append (nodup_singleton node) (by simpa using hnew), by simp [h.subset, hpool], ?_⟩
  intro b hb a ha hfree
  rw [mem_append, not_or] at hfree
  rw [tally_append_singleton, tally_append_singleton]
  have hnode := hleast a ha hfree.1
  by_cases hsame : dom node = dom b
  · -- the class that grew was a least one
    rw [if_pos (beq_iff_eq.mpr hsame), ← hsame]
    omega
  · rw [if_neg (mt beq_iff_eq.mp hsame)]
    rcases mem_append.mp hb with hb | hb
    · have := h.level b hb a ha hfree.1
      omega
    · exact absurd (congrArg dom (mem_singleton.mp hb).symm) hsame

/-- A choice that is level has no larger class than another of its size: were every class of the other
smaller, each of its classes would be at most as large here, and the sizes would differ. -/
theorem tally_le {other : List α} (hnodup : other.Nodup) (hsub : other ⊆ pool)
    (hlength : other.length = chosen.length)
    {b : α} (hb : b ∈ chosen) : ∃ s ∈ other, tally dom chosen (dom b) ≤ tally dom other (dom s) := by
  by_contra! hlt
  have hcount : ∀ x ∈ other.map dom, (other.map dom).count x ≤ (chosen.map dom).count x := by
    intro x hx
    obtain ⟨s, hs, rfl⟩ := mem_map.mp hx
    by_cases hfree : ∃ a ∈ pool, a ∉ chosen ∧ dom a = dom s
    · obtain ⟨a, ha, hfree, hclass⟩ := hfree
      have hlevel := h.level b hb a ha hfree
      rw [hclass] at hlevel
      have := hlt s hs
      unfold tally at hlevel this
      omega
    · have hfilter : other.filter (dom · == dom s) ⊆ chosen.filter (dom · == dom s) := by
        intro a ha
        obtain ⟨ha, hclass⟩ := mem_filter.mp ha
        by_contra hnot
        exact hfree ⟨a, hsub ha, fun hin => hnot (mem_filter.mpr ⟨hin, hclass⟩), beq_iff_eq.mp hclass⟩
      have hle := ((hnodup.filter _).subperm hfilter).length_le
      rw [← countP_eq_length_filter, ← countP_eq_length_filter] at hle
      unfold count
      rw [countP_map, countP_map]
      exact hle
  have hperm := (subperm_ext_iff.mpr hcount).perm_of_length_le (by simp [hlength])
  obtain ⟨s, hs, hclass⟩ := mem_map.mp (hperm.mem_iff.mpr (mem_map_of_mem hb))
  have := hlt s hs
  rw [hclass, tally, tally, hperm.count_eq] at this
  omega

/-- If there are as many classes as elements are chosen, the chosen ones lie in distinct classes. -/
theorem nodup_map {classes : List β} (hclasses : classes.Nodup) (hpool : ∀ d ∈ classes, ∃ a ∈ pool, dom a = d)
    (hlength : chosen.length ≤ classes.length) : (chosen.map dom).Nodup := by
  by_contra hdup
  obtain ⟨x, hx⟩ := not_forall.mp (nodup_iff_count_le_one.not.mp hdup)
  obtain ⟨b, hb, rfl⟩ := mem_map.mp (count_pos_iff.mp (by omega : 0 < (chosen.map dom).count x))
  have hsub : classes ⊆ chosen.map dom := by
    intro d hd
    obtain ⟨a, ha, rfl⟩ := hpool d hd
    by_cases hin : a ∈ chosen
    · exact mem_map_of_mem hin
    · have := h.level b hb a ha hin
      unfold tally at this
      exact count_pos_iff.mp (by omega)
  have hperm := (hclasses.subperm hsub).perm_of_length_le (by simpa using hlength)
  exact absurd (nodup_iff_count_le_one.mp (hperm.nodup_iff.mp hclasses) (dom b)) (by omega)

end Levelled

end LevelChoice
