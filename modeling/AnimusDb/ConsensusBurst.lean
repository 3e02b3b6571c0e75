import AnimusDb.ConsensusSteps

/-! Runs of one node on its own. A node that has not yet made its last steps durable is a run of
local steps ahead of what the others can rely on; such a run can be replayed from any state that
agrees on the node and knows at least as much. What the node takes for committed during such a run
is committed without it, as far as it was in the log the run started from. -/

open QuorumSets List

namespace LogConsensus

open Entry

variable {N E : Type} [DecidableEq N] [Entry N E] {m0 : Finset N} {F G : Set (Fact N E)} {n : N}

inductive LocalRun (m0 : Finset N) (n : N) : State N E → State N E → Prop
  | refl (s : State N E) : LocalRun m0 n s s
  | step {s s' : State N E} {nd : Node N E} {new : Set (Fact N E)} (hrun : LocalRun m0 n s s')
      (hstep : Local m0 s'.facts n (s'.node n) nd new) : LocalRun m0 n s (s'.update n nd new)

namespace LocalRun

variable {s s' s'' : State N E}

theorem single {nd : Node N E} {new : Set (Fact N E)}
    (hstep : Local m0 s.facts n (s.node n) nd new) : LocalRun m0 n s (s.update n nd new) :=
  (LocalRun.refl s).step hstep

section

variable (h : LocalRun m0 n s s')

include h

theorem trans (h' : LocalRun m0 n s' s'') : LocalRun m0 n s s'' := by
  induction h' with
  | refl => exact h
  | step _ hstep ih => exact ih.step hstep

theorem reachable (hs : Reachable m0 s) : Reachable m0 s' := by
  induction h with
  | refl => exact hs
  | step _ hstep ih => exact ih.step hstep

theorem facts_subset : s.facts ⊆ s'.facts := by
  induction h with
  | refl => exact subset_rfl
  | step _ _ ih => exact ih.trans Set.subset_union_left

theorem node_of_ne {v : N} (hv : v ≠ n) : s'.node v = s.node v := by
  induction h with
  | refl => rfl
  | step _ _ ih => rw [State.update_node_of_ne _ _ _ hv, ih]

/-- The facts that a local run adds are the node's own. -/
theorem author : ∀ f ∈ s'.facts, f.author ≠ n → f ∈ s.facts := by
  induction h with
  | refl => exact fun f hf _ => hf
  | step _ hstep ih =>
    intro f hf hne
    rcases hf with hf | hf
    · exact ih f hf hne
    · exact absurd (hstep.author f hf) hne

/-- A local run can be replayed where the node is the same and more is known. -/
theorem replay {r : State N E} (hnode : r.node n = s.node n) (hfacts : s.facts ⊆ r.facts) :
    ∃ r', LocalRun m0 n r r' ∧ r'.node n = s'.node n ∧ r'.facts = r.facts ∪ s'.facts := by
  induction h with
  | refl => exact ⟨r, .refl r, hnode, (Set.union_eq_self_of_subset_right hfacts).symm⟩
  | @step s' nd new _ hstep ih =>
    obtain ⟨r', hrun, hnode', hfacts'⟩ := ih
    have hsub : s'.facts ⊆ r'.facts := hfacts' ▸ Set.subset_union_right
    refine ⟨r'.update n nd new, hrun.step (hnode' ▸ hstep.mono hsub), ?_, ?_⟩
    · simp
    · rw [State.update_facts, State.update_facts, hfacts', Set.union_assoc]

end

end LocalRun

/-- `P` is part of what some leader of a term up to `t` committed. -/
def Committed (m0 : Finset N) (F : Set (Fact N E)) (t : Nat) (P : List E) : Prop :=
  P = [] ∨ ∃ u c K L, u ≤ t ∧ Backed m0 F u c K L ∧ Ruled m0 F L ∧ P <+: K

namespace Committed

variable {t t' : Nat} {P Q : List E}

theorem weaken (h : Committed m0 F t P) (hFG : F ⊆ G) (ht : t ≤ t') : Committed m0 G t' P := by
  rcases h with rfl | ⟨u, c, K, L, hu, hK, hL, hP⟩
  · exact Or.inl rfl
  · exact Or.inr ⟨u, c, K, L, hu.trans ht, hK.mono hFG, hL.mono hFG, hP⟩

end Committed

variable {P Q : List E} {t : Nat}

namespace Sound

theorem committed_comparable (hs : Sound m0 F) {t' : Nat}
    (hP : Committed m0 F t P) (hQ : Committed m0 F t' Q) : P <+: Q ∨ Q <+: P := by
  rcases hP with rfl | ⟨u, c, K, L, -, hK, hL, hP⟩
  · exact Or.inl nil_prefix
  rcases hQ with rfl | ⟨u', c', K', L', -, hK', hL', hQ⟩
  · exact Or.inr nil_prefix
  obtain ⟨M, hM, hKM⟩ := hK.led
  obtain ⟨M', hM', hKM'⟩ := hK'.led
  rcases le_total u u' with hle | hle
  · obtain ⟨M2, hM2, hKM2⟩ := hs.backed_in_lead hM' hK hL hle
    exact comparable_of_prefixes (hP.trans hKM2) (hQ.trans hKM') (hs.leadChain hM2 hM')
  · obtain ⟨M2, hM2, hKM2⟩ := hs.backed_in_lead hM hK' hL' hle
    exact comparable_of_prefixes (hP.trans hKM) (hQ.trans hKM2) (hs.leadChain hM hM2)

/-- A log of which one node is the only member is committed by that node alone. -/
theorem sole_member_backed (hs : Sound m0 F) {e : E} (hP : P = Q ++ [e])
    (hgood : Good F P) (hruled : Ruled m0 F P) (hsole : memberSet m0 P = {n}) :
    Backed m0 F (term e) n P P := by
  obtain ⟨c, L, hL, hPL⟩ := hgood Q e (hP ▸ prefix_rfl)
  rw [← hP] at hPL
  obtain ⟨B, V, hB, hext, -⟩ := hs.leadBase hL
  have hBQ : B <+: Q := hs.base_prefix hgood (hP ▸ prefix_rfl) hB
  have hBP : B <+: P := hP ▸ hBQ.trans (prefix_append _ _)
  have hb := hs.ballot hB
  have hcn : c = n := by
    rcases memberSet_of_prefix m0 hBP with hmem | ⟨P', x, C, hBP', hx, hxC, hmem⟩
    · have := hb.quorum.1 hb.self
      rw [← hmem, hsole] at this
      exact Finset.mem_singleton.mp this
    · obtain ⟨d, K, hK, -, -, hd⟩ := hruled P' x C hx hxC
      obtain ⟨B', V', hB', -, -⟩ := hK.base
      rw [hext.2 P' x (hx.trans hPL) hBP'.length_le] at hB'
      obtain ⟨rfl, -, -⟩ := hs.electedUnique hB hB'
      rw [← hmem, hsole] at hd
      exact Finset.mem_singleton.mp hd
  subst hcn
  refine ⟨⟨B, V, hB, hext.restrict hBP hPL, ?_⟩, prefix_rfl, ⟨L, hL, hPL⟩, {c}, ?_, ?_⟩
  · have := hBQ.length_le
    rw [hP, length_append, length_singleton]
    omega
  · rw [hsole]
    exact ⟨subset_rfl, by simp [majority]⟩
  · intro v hv
    rw [Finset.mem_singleton.mp hv]
    exact ⟨L, hs.ackSelf hL, hPL⟩

end Sound

/-- The facts `G` are `F` and further facts of node `n`. -/
structure OwnFacts (n : N) (F G : Set (Fact N E)) : Prop where
  subset : F ⊆ G
  others : ∀ f ∈ G, f.author ≠ n → f ∈ F

variable {s : State N E}

theorem LocalRun.ownFacts {s' : State N E} (h : LocalRun m0 n s s') : OwnFacts n s.facts s'.facts :=
  ⟨h.facts_subset, h.author⟩

namespace OwnFacts

/-- A commit of node `n` that another member acknowledged rests on facts that were known before:
the leadership, and a log of the leader that has the committed part. -/
theorem led_before (ho : OwnFacts n F G) (hs : Sound m0 F) {v : N} {A K : List E}
    (hv : v ≠ n) (hA : .ack t v n A ∈ G) (hK : K <+: A) : ∃ L, .lead t n L ∈ F ∧ K <+: L := by
  obtain ⟨L, hL, hAL⟩ := hs.ackLed (ho.others _ hA hv)
  exact ⟨L, hL, hK.trans hAL⟩

/-- With such a leader's log known before, the whole majority was known before. -/
theorem backed_before (ho : OwnFacts n F G) (hs : Sound m0 F) (hs' : Sound m0 G)
    {K L M : List E} (hK : Backed m0 G t n K L) (hM : .lead t n M ∈ F) (hKM : K <+: M) :
    Backed m0 F t n K L := by
  obtain ⟨⟨B, V, hB, hext, hlen⟩, hKL, -, Q, hQ, hack⟩ := hK
  obtain ⟨B', V', hB', -, -⟩ := hs.leadBase hM
  obtain ⟨-, rfl, rfl⟩ := hs'.electedUnique hB (ho.subset hB')
  refine ⟨⟨B, V, hB', hext, hlen⟩, hKL, ⟨M, hM, hKM⟩, Q, hQ, fun v hv => ?_⟩
  by_cases hvn : v = n
  · subst hvn
    exact ⟨M, hs.ackSelf hM, hKM⟩
  · obtain ⟨A, hA, hKA⟩ := hack v hv
    exact ⟨A, ho.others _ hA hvn, hKA⟩

/-- A majority of the members of a log is node `n` alone, or has another member. -/
theorem sole_or_other {L K : List E} {c : N} (hK : Backed m0 G t c K L) :
    memberSet m0 L = {n} ∨ ∃ v A, v ≠ n ∧ .ack t v c A ∈ G ∧ K <+: A := by
  obtain ⟨Q, hQ, hack⟩ := hK.quorum
  by_cases hall : ∀ v ∈ Q, v = n
  · exact Or.inl (hQ.eq_singleton hall)
  · simp only [not_forall] at hall
    obtain ⟨v, hv, hne⟩ := hall
    obtain ⟨A, hA, hKA⟩ := hack v hv
    exact Or.inr ⟨v, A, hne, hA, hKA⟩

/-- What was known before of a log whose only member is node `n` was committed before. The
induction goes back over the changes of the members in the log. -/
theorem committed_of_sole (ho : OwnFacts n F G) (hs : Sound m0 F) (hs' : Sound m0 G)
    {L : List E} (hgood : Good G L) (hruled : Ruled m0 G L) (hterm : ∀ e ∈ L, term e ≤ t)
    (hsole : memberSet m0 L = {n}) (hP : P <+: L) (hgoodP : Good F P) (hruledP : Ruled m0 F P) :
      Committed m0 F t P := by
  induction hlen : L.length using Nat.strong_induction_on generalizing L with
  | _ k ih =>
    subst hlen
    rcases eq_nil_or_concat P with rfl | ⟨P', x, hPx⟩
    · exact Or.inl rfl
    rw [concat_eq_append] at hPx
    rcases memberSet_of_prefix m0 hP with hmem | ⟨Q, e, C, hPQ, hQ, he, hmem⟩
    · have hx : term x ≤ t := hterm x (hP.subset (by simp [hPx]))
      exact Or.inr ⟨term x, n, P, P, hx, hs.sole_member_backed hPx hgoodP hruledP (hmem ▸ hsole), hruledP,
        prefix_rfl⟩
    obtain ⟨c, K, hK, hsettled, hadj, hc⟩ := hruled Q e C hQ he
    obtain rfl : c = n := by
      rw [← hmem, hsole] at hc
      exact Finset.mem_singleton.mp hc
    have het : term e ≤ t := hterm e (hQ.subset (by simp))
    rcases sole_or_other (n := c) hK with hsoleQ | ⟨v, A, hv, hA, hKA⟩
    · -- the change rests on a commit by the same single member: go back to the log before it
      exact ih Q.length (prefix_snoc_length hQ) (hgood.restrict (prefix_of_snoc hQ))
        (hruled.restrict (prefix_of_snoc hQ)) (fun y hy => hterm y ((prefix_of_snoc hQ).subset hy))
        hsoleQ hPQ rfl
    obtain ⟨L3, hL3, hKL3⟩ := ho.led_before hs hv hA hKA
    obtain ⟨d, L4, hL4, hQL4⟩ := hgood Q e hQ
    obtain ⟨B, V, hB, hext, hlenB⟩ := hs.leadBase hL3
    obtain ⟨B', V', hB', hext4, -⟩ := hs'.leadBase hL4
    obtain ⟨rfl, rfl, rfl⟩ := hs'.electedUnique (ho.subset hB) hB'
    -- a log of the leader, known before, that has both `K` and `P`
    obtain ⟨L5, hL5, hKL5, hPL5⟩ : ∃ L5, .lead (term e) c L5 ∈ F ∧ K <+: L5 ∧ P <+: L5 := by
      have hcomp := comparable_of_prefixes (hPQ.trans (prefix_of_snoc hQL4)) prefix_rfl
        (hs'.leadChain hL4 (ho.subset hL3))
      rcases hcomp with hPL3 | hL3P
      · exact ⟨L3, hL3, hKL3, hPL3⟩
      · have hterm' : term x = term e := by
          have h1 := hext4.lastTerm_eq (hPQ.trans (prefix_of_snoc hQL4)) (lt_of_lt_of_le hlenB hL3P.length_le)
          rwa [hPx, lastTerm_snoc] at h1
        obtain ⟨d, L6, hL6, hPL6⟩ := hgoodP P' x (hPx ▸ prefix_rfl)
        rw [hterm'] at hL6
        obtain ⟨B6, V6, hB6, -, -⟩ := hs.leadBase hL6
        obtain ⟨rfl, -, -⟩ := hs.electedUnique hB hB6
        rw [← hPx] at hPL6
        exact ⟨L6, hL6, (hKL3.trans hL3P).trans hPL6, hPL6⟩
    obtain ⟨B5, V5, hB5, hext5, hlen5⟩ := hs.leadBase hL5
    obtain ⟨-, rfl, rfl⟩ := hs.electedUnique hB hB5
    have hmemQe : memberSet m0 (Q ++ [e]) = {c} := by
      rw [memberSet_snoc, he, Option.getD_some, ← hmem, hsole]
    have hmaj : IsMajority (memberSet m0 (Q ++ [e])) {c} := by
      rw [hmemQe]
      exact ⟨subset_rfl, by simp [majority]⟩
    have hselfAck : ∀ {K' : List E}, K' <+: L5 → ∀ v ∈ ({c} : Finset N), ∃ A,
      .ack (term e) v c A ∈ F ∧ K' <+: A := by
      intro K' hK' v hv
      rw [Finset.mem_singleton.mp hv]
      exact ⟨L5, hs.ackSelf hL5, hK'⟩
    have hBQ : B <+: Q := hs'.base_prefix hgood hQ (ho.subset hB)
    have hextQe : Extends (term e) B (Q ++ [e]) :=
      hext4.restrict (hBQ.trans (prefix_append _ _)) hQL4
    have hcomp5 := comparable_of_prefixes hQL4 prefix_rfl (hs'.leadChain hL4 (ho.subset hL5))
    rcases hcomp5 with hQL5 | hL5Q
    · refine Or.inr ⟨term e, c, Q ++ [e], Q ++ [e], het, ⟨⟨B, V, hB, hextQe, ?_⟩, prefix_rfl,
        ⟨L5, hL5, hQL5⟩, {c}, hmaj, hselfAck hQL5⟩, (hs.leadRuled hL5).restrict hQL5,
        hPQ.trans (prefix_append _ _)⟩
      have := hBQ.length_le
      rw [length_append, length_singleton]
      omega
    · have hKQ : Backed m0 F (term e) c K Q := ho.backed_before hs hs' hK hL5 hKL5
      have hruledQe : Ruled m0 F (Q ++ [e]) := by
        intro R y C' hR hy
        rcases prefix_concat_iff.mp hR with heq | hRQ
        · obtain ⟨rfl, hye⟩ := append_inj' heq rfl
          obtain rfl := singleton_inj.mp hye
          obtain rfl : C = C' := Option.some.inj (he.symm.trans hy)
          exact ⟨c, K, hKQ, hsettled, hadj, hc⟩
        · exact hs.leadRuled hL5 R y C' ((hsettled R y hRQ (by simp [hy])).trans hKL5) hy
      exact Or.inr ⟨term e, c, L5, Q ++ [e], het, ⟨⟨B, V, hB, hextQe, hlen5⟩, hL5Q,
        ⟨L5, hL5, prefix_rfl⟩, {c}, hmaj, hselfAck prefix_rfl⟩, hruledQe, hPL5⟩

/-- What node `n` saw committed as a leader was committed before, as far as it was known
before. -/
theorem committed_before (ho : OwnFacts n F G) (hs : Sound m0 F) (hs' : Sound m0 G)
    {K L : List E} (hc : .committed t n K L ∈ G) (hP : P <+: K) (hgoodP : Good F P)
    (hruledP : Ruled m0 F P) : Committed m0 F t P := by
  have hL := hs'.committedLed hc
  have hK := hs'.committedBacked hc
  have hgood := hs'.lead_good hL
  have hruled := hs'.leadRuled hL
  have hterm := hs'.lead_term_le hL
  rcases sole_or_other (n := n) hK with hsole | ⟨v, A, hv, hA, hKA⟩
  · exact ho.committed_of_sole hs hs' hgood hruled hterm hsole (hP.trans hK.inLog) hgoodP hruledP
  obtain ⟨M, hM, hKM⟩ := ho.led_before hs hv hA hKA
  by_cases hex : ∃ Q, Q <+: L ∧ K <+: Q ∧ memberSet m0 Q = {n}
  · obtain ⟨Q, hQL, hKQ, hsole⟩ := hex
    exact ho.committed_of_sole hs hs' (hgood.restrict hQL) (hruled.restrict hQL)
      (fun e he => hterm e (hQL.subset he)) hsole (hP.trans hKQ) hgoodP hruledP
  refine Or.inr ⟨t, n, K, L, le_rfl, ho.backed_before hs hs' hK hM hKM, ?_, hP⟩
  intro Q e C hQ he
  rcases comparable_of_prefixes hQ prefix_rfl (hs'.leadChain hL (ho.subset hM)) with hQM | hMQ
  · exact hs.leadRuled hM Q e C hQM he
  · obtain ⟨d, K2, hK2, hsettled, hadj, hd⟩ := hruled Q e C hQ he
    obtain ⟨B, V, hB, hext, -⟩ := hs'.leadBase hL
    obtain ⟨B', V', hB', -, hlen⟩ := hs.leadBase hM
    obtain ⟨-, rfl, rfl⟩ := hs'.electedUnique hB (ho.subset hB')
    by_cases hMe : M = Q ++ [e]
    · exact hs.leadRuled hM Q e C (hMe ▸ prefix_rfl) he
    have hMQ' : M <+: Q := (prefix_concat_iff.mp hMQ).resolve_left hMe
    have hte : term e = t := hext.2 Q e hQ (hlen.le.trans hMQ'.length_le)
    obtain ⟨B2, V2, hB2, -, -⟩ := hK2.base
    rw [hte] at hB2 hK2 ⊢
    obtain ⟨rfl, -, -⟩ := hs'.electedUnique hB hB2
    rcases sole_or_other (n := n) hK2 with hsole | ⟨w, A2, hw, hA2, hKA2⟩
    · exact absurd ⟨Q, prefix_of_snoc hQ, hKM.trans hMQ', hsole⟩ hex
    · obtain ⟨M2, hM2, hK2M2⟩ := ho.led_before hs hw hA2 hKA2
      exact ⟨n, K2, ho.backed_before hs hs' hK2 hM2 hK2M2, hsettled, hadj, hd⟩

end OwnFacts

/-- What a node takes for committed in a local run was committed before the run, as far as it was
in the node's log before the run. -/
theorem LocalRun.committed_before {s' : State N E} (h : LocalRun m0 n s s')
    (hs : Reachable m0 s) (hcommit : P <+: (s'.node n).log.take (s'.node n).commit)
    (hbefore : P <+: (s.node n).log) : Committed m0 s.facts (s'.node n).term P := by
  have hinv := hs.inv
  have hinv' := (h.reachable hs).inv
  rcases Nat.eq_zero_or_pos (s'.node n).commit with hz | hpos
  · rw [hz, take_zero] at hcommit
    exact Or.inl (prefix_nil.mp hcommit)
  obtain ⟨t, c, K, L, hc, ht, hK⟩ := (hinv'.log n).commitKnown hpos
  have hPK := hcommit.trans hK
  by_cases hcn : c = n
  · subst hcn
    exact (h.ownFacts.committed_before hinv.sound hinv'.sound hc hPK
      ((hinv.log _).good.restrict hbefore) ((hinv.log _).ruled.restrict hbefore)).weaken subset_rfl ht
  · have hc' := h.author _ hc hcn
    exact Or.inr ⟨t, c, K, L, ht, hinv.sound.committedBacked hc', hinv.sound.committedRuled hc', hPK⟩

/-- Some leader of a term up to `t` is known to have committed `P`. -/
def Known (F : Set (Fact N E)) (t : Nat) (P : List E) : Prop :=
  P = [] ∨ ∃ u c K L, .committed u c K L ∈ F ∧ u ≤ t ∧ P <+: K

omit [DecidableEq N] [Entry N E] in
theorem Known.weaken {t' : Nat} (h : Known F t P) (hFG : F ⊆ G) (ht : t ≤ t') : Known G t' P := by
  rcases h with rfl | ⟨u, c, K, L, hc, hu, hP⟩
  · exact Or.inl rfl
  · exact Or.inr ⟨u, c, K, L, hFG hc, hu.trans ht, hP⟩

omit [DecidableEq N] [Entry N E] in
theorem Known.restrict (h : Known F t P) (hQ : Q <+: P) : Known F t Q := by
  rcases h with rfl | ⟨u, c, K, L, hc, hu, hP⟩
  · exact Or.inl (prefix_nil.mp hQ)
  · exact Or.inr ⟨u, c, K, L, hc, hu, hQ.trans hP⟩

theorem Known.committed (hs : Sound m0 F) (h : Known F t P) : Committed m0 F t P := by
  rcases h with rfl | ⟨u, c, K, L, hc, hu, hP⟩
  · exact Or.inl rfl
  · exact Or.inr ⟨u, c, K, L, hu, hs.committedBacked hc, hs.committedRuled hc, hP⟩

variable (m0) in
/-- A node that knows of a longer committed part of its log raises its commit index to it. -/
theorem Known.learn {k : Nat} (hcommit : (s.node n).commit ≤ k) (hk : k ≤ (s.node n).log.length)
    (h : Known s.facts (s.node n).term ((s.node n).log.take k)) :
    ∃ s', LocalRun m0 n s s' ∧ s'.node n = { s.node n with commit := k } := by
  rcases Nat.eq_or_lt_of_le hcommit with rfl | hlt
  · exact ⟨s, .refl s, rfl⟩
  · rcases h with hnil | ⟨u, c, K, L, hc, hu, hK⟩
    · have := congrArg length hnil
      rw [length_take_of_le hk, length_nil] at this
      omega
    · exact ⟨_, .single (.learn u c K L k hc hu hlt hk hK), State.update_node_self _ _ _ _⟩

theorem Inv.known (h : Inv m0 s) (n : N) :
    Known s.facts (s.node n).term ((s.node n).log.take (s.node n).commit) := by
  rcases Nat.eq_zero_or_pos (s.node n).commit with hz | hpos
  · exact Or.inl (by simp [hz])
  · obtain ⟨t, c, K, L, hc, ht, hK⟩ := (h.log n).commitKnown hpos
    exact Or.inr ⟨t, c, K, L, hc, ht, hK⟩

theorem Inv.committed_in_leader (h : Inv m0 s) {n : N}
    (hrole : (s.node n).role = .leader) (hP : Committed m0 s.facts t P) (ht : t < (s.node n).term) :
    P <+: (s.node n).log := by
  obtain ⟨hlead, -⟩ := (h.role n).leader hrole
  obtain ⟨B, V, hB, hext, -⟩ := h.sound.leadBase hlead
  rcases hP with rfl | ⟨u, d, K, L, hu, hK, hL, hP⟩
  · exact nil_prefix
  · exact (hP.trans (h.sound.complete hB (by omega) hK hL)).trans hext.1

/-- Two nodes that run ahead of one state do not both lead the same term. -/
theorem LocalRun.leader_unique {s₁ s₂ : State N E} {v : N} (hs : Reachable m0 s)
    (h₁ : LocalRun m0 n s s₁) (h₂ : LocalRun m0 v s s₂) (hrole₁ : (s₁.node n).role = .leader)
    (hrole₂ : (s₂.node v).role = .leader) (hterm : (s₁.node n).term = (s₂.node v).term) : n = v := by
  by_contra hne
  -- the second run is replayed after the first, so that one state has both leaders
  obtain ⟨r, hrun, hnode, -⟩ := h₂.replay (h₁.node_of_ne (Ne.symm hne)) h₁.facts_subset
  have hr := hrun.reachable (h₁.reachable hs)
  have hlead₁ := (hr.inv.role n).leader (by rw [hrun.node_of_ne hne]; exact hrole₁)
  have hlead₂ := (hr.inv.role v).leader (by rw [hnode]; exact hrole₂)
  obtain ⟨B₁, V₁, hB₁, -⟩ := hr.inv.sound.leadBase hlead₁.1
  obtain ⟨B₂, V₂, hB₂, -⟩ := hr.inv.sound.leadBase hlead₂.1
  rw [hrun.node_of_ne hne, hterm] at hB₁
  rw [hnode] at hB₂
  exact hne (hr.inv.sound.electedUnique hB₁ hB₂).1

end LogConsensus
