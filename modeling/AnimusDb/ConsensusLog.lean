import Mathlib.Data.Finset.Sort
import Mathlib.Data.Finset.SymmDiff
import Mathlib.Data.List.Infix
import Mathlib.Data.List.Sort
import Mathlib.Data.Nat.Find
import Mathlib.Order.SymmDiff

/-! Logs of a replicated-log protocol whose membership lives in the log. An entry has a term and may
set the members; what one log says about another is said through prefixes, and an entry at a
position is a prefix that ends in it. Two majorities of members meet when they are majorities of one
set, or of two sets that differ in at most one member. -/

open List

namespace QuorumSets

variable {K : Type} [LinearOrder K]

/-- The members of a finite set in ascending order. -/
def ascending (s : Finset K) : List K :=
  Quot.liftOn s.val (fun l => l.insertionSort (· ≤ ·)) fun a b hperm =>
    (((perm_insertionSort _ a).trans hperm).trans (perm_insertionSort _ b).symm).eq_of_pairwise'
      (pairwise_insertionSort _ a) (pairwise_insertionSort _ b)

theorem coe_ascending (s : Finset K) : (ascending s : Multiset K) = s.val := by
  obtain ⟨m, hm⟩ := s
  induction m using Quot.inductionOn with
  | h l => exact Quot.sound (perm_insertionSort _ l)

@[simp]
theorem mem_ascending {s : Finset K} {k : K} : k ∈ ascending s ↔ k ∈ s := by
  rw [← Multiset.mem_coe, coe_ascending, Finset.mem_val]

theorem nodup_ascending (s : Finset K) : (ascending s).Nodup := by
  rw [← Multiset.coe_nodup, coe_ascending]
  exact s.nodup

variable {K : Type}

/-- The size that a quorum of a set of `size` members must reach. -/
def majority (size : Nat) : Nat := size / 2 + 1

/-- `q` is a majority of the members `s`. -/
def IsMajority (s q : Finset K) : Prop := q ⊆ s ∧ majority s.card ≤ q.card

theorem IsMajority.nonempty {s q : Finset K} (h : IsMajority s q) : q.Nonempty := by
  rw [← Finset.card_pos]
  have := h.2
  unfold majority at this
  omega

theorem IsMajority.eq_singleton {s q : Finset K} {k : K} (hq : IsMajority s q) (hsub : ∀ m ∈ q, m = k) :
    s = {k} := by
  have hqk : q ⊆ {k} := fun m hm => Finset.mem_singleton.mpr (hsub m hm)
  have hcard : q.card ≤ 1 := by simpa using Finset.card_le_card hqk
  obtain ⟨m, hm⟩ := hq.nonempty
  have hmk := hsub m hm
  have hks : k ∈ s := hmk ▸ hq.1 hm
  have hs : s.card ≤ 1 := by
    have := hq.2
    unfold majority at this
    omega
  exact Finset.eq_singleton_iff_unique_mem.mpr ⟨hks, fun x hx => Finset.card_le_one.mp hs x hx k hks⟩

variable [DecidableEq K]

/-- Two member sets that differ in at most one member. -/
def Adjacent (s t : Finset K) : Prop := (symmDiff s t).card ≤ 1

theorem Adjacent.refl (s : Finset K) : Adjacent s s := by
  simp [Adjacent]

theorem Adjacent.symm {s t : Finset K} (h : Adjacent s t) : Adjacent t s := by
  rwa [Adjacent, symmDiff_comm]

theorem Adjacent.card_union {s t : Finset K} (h : Adjacent s t) : 2 * (s ∪ t).card ≤ s.card + t.card + 1 := by
  have hsum := Finset.card_union_add_card_inter s t
  have hsplit : (symmDiff s t).card + (s ∩ t).card = (s ∪ t).card := by
    have hdisj : Disjoint (symmDiff s t) (s ∩ t) := disjoint_symmDiff_inf s t
    rw [← Finset.card_union_of_disjoint hdisj]
    exact congrArg Finset.card (symmDiff_sup_inf s t)
  unfold Adjacent at h
  omega

theorem IsMajority.inter_of_adjacent {s t p q : Finset K} (hp : IsMajority s p)
    (hq : IsMajority t q) (hadj : Adjacent s t) : ∃ k, k ∈ p ∧ k ∈ q := by
  by_contra hnone
  have hdisj : Disjoint p q := by
    rw [Finset.disjoint_left]
    intro k hkp hkq
    exact hnone ⟨k, hkp, hkq⟩
  have hsub : p ∪ q ⊆ s ∪ t := Finset.union_subset_union hp.1 hq.1
  have hcard := Finset.card_le_card hsub
  rw [Finset.card_union_of_disjoint hdisj] at hcard
  have hunion := hadj.card_union
  have hp2 := hp.2
  have hq2 := hq.2
  unfold majority at hp2 hq2
  omega

end QuorumSets

open QuorumSets

namespace LogConsensus

/-- What the protocol reads of a log entry: its term, and the members it sets if it is a
membership entry. -/
class Entry (N : outParam Type) (E : Type) where
  term : E → Nat
  members : E → Option (Finset N)

open Entry

variable {E : Type}

theorem prefix_snoc_length {P L : List E} {e : E} (h : P ++ [e] <+: L) : P.length < L.length := by
  have := h.length_le
  simp at this
  omega

theorem prefix_of_snoc {P L : List E} {e : E} (h : P ++ [e] <+: L) : P <+: L :=
  (prefix_append P [e]).trans h

theorem comparable_of_prefixes {P Q L M : List E} (hP : P <+: L) (hQ : Q <+: M)
    (hcomp : L <+: M ∨ M <+: L) : P <+: Q ∨ Q <+: P := by
  rcases hcomp with h | h
  · exact prefix_or_prefix_of_prefix (hP.trans h) hQ
  · exact prefix_or_prefix_of_prefix hP (hQ.trans h)

theorem exists_common_prefix (L M : List E) : ∃ D, D <+: L ∧ D <+: M ∧ ∀ P, P <+: L → P <+: M → P <+: D := by
  classical
  refine ⟨L.take (Nat.findGreatest (fun k => L.take k <+: M) L.length), take_prefix _ L,
    Nat.findGreatest_spec (P := fun k => L.take k <+: M) (Nat.zero_le _) nil_prefix, fun P hL hM => ?_⟩
  rw [prefix_iff_eq_take.mp hL] at hM ⊢
  exact take_prefix_take_left (Nat.le_findGreatest hL.length_le hM)

theorem exists_snoc_of_length_lt {B K : List E} (h : B.length < K.length) :
    ∃ P e, K = P ++ [e] ∧ B.length ≤ P.length := by
  rcases eq_nil_or_concat K with rfl | ⟨P, e, rfl⟩
  · simp at h
  · refine ⟨P, e, concat_eq_append, ?_⟩
    simp at h
    omega

variable {E A : Type} (f : E → Option A)

/-- The last value that an entry of the log sets, `base` if none does. -/
def latest (base : A) (L : List E) : A :=
  L.foldl (fun a e => (f e).getD a) base

theorem latest_append (base : A) (L M : List E) : latest f base (L ++ M) = latest f (latest f base L) M :=
  foldl_append

@[simp]
theorem latest_snoc (base : A) (L : List E) (e : E) :
    latest f base (L ++ [e]) = (f e).getD (latest f base L) := by
  rw [latest_append]
  rfl

/-- The backward search for the last value set by an entry that satisfies `p`. -/
theorem latest_filter (base : A) (p sets : E → Bool) (L : List E) (hsets : ∀ e ∈ L, sets e = (f e).isSome) :
    latest f base (L.filter p) = ((L.reverse.find? fun e => p e && sets e).bind f).getD base := by
  induction L using reverseRecOn with
  | nil => rfl
  | append_singleton L e ih =>
    have ih := ih fun x hx => hsets x (mem_append_left _ hx)
    have he := hsets e (by simp)
    rw [filter_append, reverse_append, reverse_singleton, singleton_append, find?_cons, he]
    cases hp : p e with
    | false => simpa [hp] using ih
    | true =>
      cases hf : f e with
      | none => simpa [hp, hf] using ih
      | some a => simp [hp, hf]

variable {N E : Type} [Entry N E]

/-- The term of the last entry, zero for the empty log. -/
def lastTerm (L : List E) : Nat :=
  match L.getLast? with
  | some e => term e
  | none => 0

@[simp]
theorem lastTerm_snoc (P : List E) (e : E) : lastTerm (P ++ [e]) = term e := by
  simp [lastTerm]

variable (m0 : Finset N)

/-- The members that a log leaves in force. -/
def memberSet (L : List E) : Finset N :=
  latest members m0 L

@[simp]
theorem memberSet_snoc (P : List E) (e : E) :
    memberSet m0 (P ++ [e]) = (members e).getD (memberSet m0 P) := by
  simp [memberSet]

/-- Past a prefix `D`, either no entry sets the members, or the last one that does so decides. -/
theorem memberSet_of_prefix {D L : List E} (h : D <+: L) : memberSet m0 L = memberSet m0 D ∨
      ∃ P e C, D <+: P ∧ P ++ [e] <+: L ∧ members e = some C ∧ memberSet m0 L = C := by
  obtain ⟨R, rfl⟩ := h
  induction R using reverseRecOn with
  | nil => exact Or.inl (by simp)
  | append_singleton R e ih =>
    rw [← append_assoc, memberSet_snoc]
    cases hm : members e with
    | some C =>
      exact Or.inr ⟨D ++ R, e, C, prefix_append D R, prefix_rfl, hm, rfl⟩
    | none =>
      rcases ih with heq | ⟨P, e', C, hDP, hP, he', hC⟩
      · exact Or.inl heq
      · exact Or.inr ⟨P, e', C, hDP, hP.trans (prefix_append _ _), he', hC⟩

theorem memberSet_eq_of_changes_within {D L : List E} (h : D <+: L)
    (hwithin : ∀ P e, P ++ [e] <+: L → (members e).isSome → P ++ [e] <+: D) :
    memberSet m0 L = memberSet m0 D := by
  rcases memberSet_of_prefix m0 h with heq | ⟨P, e, C, hDP, hP, he, -⟩
  · exact heq
  · have hback := hwithin P e hP (by simp [he])
    have h1 := prefix_snoc_length hback
    have h2 := hDP.length_le
    omega

/-- Terms do not decrease along the log. -/
def Ordered (L : List E) : Prop := L.Pairwise fun a b => term a ≤ term b

theorem Ordered.restrict {P L : List E} (h : Ordered L) (hP : P <+: L) : Ordered P :=
  List.Pairwise.sublist hP.sublist h

theorem Ordered.snoc {P : List E} {e : E} (h : Ordered P) (he : ∀ x ∈ P, term x ≤ term e) :
    Ordered (P ++ [e]) := by
  unfold Ordered at h ⊢
  rw [pairwise_append]
  refine ⟨h, pairwise_singleton _ _, ?_⟩
  intro a ha b hb
  rw [mem_singleton.mp hb]
  exact he a ha

theorem Ordered.lastTerm_le {K P L : List E} {e : E} (h : Ordered L) (hne : K ≠ []) (hK : K <+: P)
    (hP : P ++ [e] <+: L) : lastTerm K ≤ term e := by
  have hord := h.restrict hP
  unfold Ordered at hord
  rw [pairwise_append] at hord
  obtain ⟨Q, x, rfl⟩ := eq_nil_or_concat K |>.resolve_left hne
  rw [concat_eq_append] at hK ⊢
  rw [lastTerm_snoc]
  exact hord.2.2 x (hK.subset (by simp)) e (by simp)

theorem Ordered.lastTerm_mono {K L : List E} (h : Ordered L) (hne : K ≠ []) (hK : K <+: L) :
    lastTerm K ≤ lastTerm L := by
  rcases eq_nil_or_concat L with rfl | ⟨P, e, rfl⟩
  · exact absurd (prefix_nil.mp hK) hne
  · rw [concat_eq_append] at h hK ⊢
    rcases prefix_concat_iff.mp hK with rfl | hKP
    · exact le_rfl
    · rw [lastTerm_snoc]
      exact h.lastTerm_le hne hKP prefix_rfl

/-- `B` is at least as up to date as `L`: a later last term, or the same and no shorter. -/
def UpToDate (B L : List E) : Prop :=
  lastTerm L < lastTerm B ∨ (lastTerm B = lastTerm L ∧ L.length ≤ B.length)

theorem UpToDate.refl (L : List E) : UpToDate L L := Or.inr ⟨rfl, le_rfl⟩

/-- `L` is `B` followed by entries of term `t`. -/
def Extends (t : Nat) (B L : List E) : Prop :=
  B <+: L ∧ ∀ P e, P ++ [e] <+: L → B.length ≤ P.length → term e = t

theorem Extends.refl (t : Nat) (B : List E) : Extends t B B := by
  refine ⟨prefix_rfl, ?_⟩
  intro P e hP hlen
  have := prefix_snoc_length hP
  omega

variable {t : Nat}

theorem Extends.snoc {B L : List E} {e : E} (h : Extends t B L) (he : term e = t) :
    Extends t B (L ++ [e]) := by
  refine ⟨h.1.trans (prefix_append _ _), ?_⟩
  intro P x hP hlen
  rcases prefix_concat_iff.mp hP with heq | hP
  · obtain ⟨-, hx⟩ := append_inj' heq rfl
    rw [singleton_inj.mp hx, he]
  · exact h.2 P x hP hlen

theorem Extends.lastTerm_eq {B K L : List E} (h : Extends t B L) (hK : K <+: L)
    (hlen : B.length < K.length) : lastTerm K = t := by
  obtain ⟨P, e, rfl, hP⟩ := exists_snoc_of_length_lt hlen
  rw [lastTerm_snoc]
  exact h.2 P e hK hP

theorem Extends.prefix_base {B P L : List E} {e : E} (h : Extends t B L)
    (hP : P ++ [e] <+: L) (hne : term e ≠ t) : P ++ [e] <+: B := by
  rcases prefix_or_prefix_of_prefix hP h.1 with hPB | hBP
  · exact hPB
  · rcases prefix_concat_iff.mp hBP with rfl | hBP
    · exact prefix_rfl
    · exact absurd (h.2 P e hP hBP.length_le) hne

theorem Extends.restrict {B P L : List E} (h : Extends t B L) (hB : B <+: P) (hP : P <+: L) : Extends t B P :=
  ⟨hB, fun Q e hQ hlen => h.2 Q e (hQ.trans hP) hlen⟩

/-- Past `D`, a log changes its members at most once, by one member, and the change has the term
of an entry within `D`. -/
def ChangesOnce (D L : List E) [DecidableEq N] : Prop :=
  ∀ P e C, D <+: P → P ++ [e] <+: L → members e = some C →
    ∃ K, K <+: D ∧ K ≠ [] ∧ lastTerm K = term e ∧ memberSet m0 P = memberSet m0 D ∧
    Adjacent (memberSet m0 P) C

/-- Two logs that branch at `D` have adjacent members, if each changes them at most once past `D`
and no two such changes have the same term. -/
theorem adjacent_of_changesOnce [DecidableEq N] {m0 : Finset N} {D L M : List E} (hL : D <+: L)
    (hM : D <+: M) (hordL : Ordered L) (hordM : Ordered M) (hcL : ChangesOnce m0 D L) (hcM : ChangesOnce m0 D M)
    (hboth : ∀ P e Q f, D <+: P → P ++ [e] <+: L → D <+: Q → Q ++ [f] <+: M → term e = term f → False) :
    Adjacent (memberSet m0 L) (memberSet m0 M) := by
  rcases memberSet_of_prefix m0 hL with hLD | ⟨P, e, C, hDP, hP, he, hLC⟩
  · rcases memberSet_of_prefix m0 hM with hMD | ⟨Q, f, C', hDQ, hQ, hf, hMC⟩
    · rw [hLD, hMD]
      exact Adjacent.refl _
    · obtain ⟨K, -, -, -, hmem, hadj⟩ := hcM Q f C' hDQ hQ hf
      rw [hLD, hMC, ← hmem]
      exact hadj
  · obtain ⟨K, hKD, hKne, hKt, hmem, hadj⟩ := hcL P e C hDP hP he
    rcases memberSet_of_prefix m0 hM with hMD | ⟨Q, f, C', hDQ, hQ, hf, hMC⟩
    · rw [hLC, hMD, ← hmem]
      exact hadj.symm
    · obtain ⟨K', hKD', hKne', hKt', -, -⟩ := hcM Q f C' hDQ hQ hf
      -- the entries that justify the two changes both lie in the common part
      have h1 : term f ≤ term e := hKt' ▸ hordL.lastTerm_le hKne' (hKD'.trans hDP) hP
      have h2 : term e ≤ term f := hKt ▸ hordM.lastTerm_le hKne (hKD.trans hDQ) hQ
      exact (hboth P e Q f hDP hP hDQ hQ (le_antisymm h2 h1)).elim

end LogConsensus
