import AnimusDb.ConsensusInvariant

/-! Every local step keeps the invariant, so every reachable state has it. -/

open QuorumSets List Set

namespace LogConsensus

open Entry

variable {N E : Type} [DecidableEq N] [Entry N E] {m0 : Finset N} {F : Set (Fact N E)} {L : List E} {c : N} {e : E}

omit [DecidableEq N] in
theorem Good.snoc (h : Good F L) (hlead : .lead (term e) c (L ++ [e]) ∈ F) : Good F (L ++ [e]) := by
  intro P x hP
  rcases prefix_concat_iff.mp hP with heq | hP
  · obtain ⟨rfl, hx⟩ := append_inj' heq rfl
    obtain rfl := singleton_inj.mp hx
    exact ⟨c, _, hlead, prefix_rfl⟩
  · exact h P x hP

theorem Ruled.snoc_plain (h : Ruled m0 F L) (he : members e = none) : Ruled m0 F (L ++ [e]) := by
  intro P x C hP hx
  rcases prefix_concat_iff.mp hP with heq | hP
  · obtain ⟨-, hxe⟩ := append_inj' heq rfl
    rw [singleton_inj.mp hxe, he] at hx
    exact absurd hx (by simp)
  · exact h P x C hP hx

variable {K : List E}

theorem Ruled.snoc_change {C : Finset N} (h : Ruled m0 F L) (he : members e = some C)
    (hK : Backed m0 F (term e) c K L)
    (hsettled : ∀ Q x, Q ++ [x] <+: L → (members x).isSome → Q ++ [x] <+: K)
    (hadj : Adjacent (memberSet m0 L) C) (hc : c ∈ C) : Ruled m0 F (L ++ [e]) := by
  intro P x C' hP hx
  rcases prefix_concat_iff.mp hP with heq | hP
  · obtain ⟨rfl, hxe⟩ := append_inj' heq rfl
    obtain rfl := singleton_inj.mp hxe
    obtain rfl : C = C' := Option.some.inj (he.symm.trans hx)
    exact ⟨c, K, hK, hsettled, hadj, hc⟩
  · exact h P x C' hP hx

variable {t : Nat} {M : List E}

namespace Sound

theorem lead_good (hs : Sound m0 F) (h : .lead t c L ∈ F) : Good F L := by
  intro P e hP
  obtain ⟨B, V, hB, hext, -⟩ := hs.leadBase h
  by_cases he : term e = t
  · exact ⟨c, L, he ▸ h, hP⟩
  · exact (hs.ballot hB).good P e (hext.prefix_base hP he)

theorem lead_ordered (hs : Sound m0 F) (h : .lead t c L ∈ F) : Ordered L := by
  obtain ⟨B, V, hB, hext, -⟩ := hs.leadBase h
  exact hs.ordered_of_extends hB hext

theorem lead_term_le (hs : Sound m0 F) (h : .lead t c L ∈ F) : ∀ e ∈ L, term e ≤ t := by
  intro e he
  obtain ⟨B, V, hB, hext, -⟩ := hs.leadBase h
  obtain ⟨R, R', rfl⟩ := append_of_mem he
  exact hs.term_le_of_extends (P := R) hB hext ⟨R', by simp⟩

/-- What was committed by the leader of a term up to `t` is in some log of the leader of `t`. -/
theorem backed_in_lead (hs : Sound m0 F) {u : Nat} {d : N}
    (hM : .lead t c M ∈ F) (hK : Backed m0 F u d K L) (hL : Ruled m0 F L) (hu : u ≤ t) :
    ∃ M', .lead t c M' ∈ F ∧ K <+: M' := by
  obtain ⟨B, V, hB, hext, -⟩ := hs.leadBase hM
  rcases Nat.lt_or_eq_of_le hu with hlt | rfl
  · exact ⟨M, hM, (hs.complete hB hlt hK hL).trans hext.1⟩
  · obtain ⟨M', hM', hKM⟩ := hK.led
    obtain ⟨B', V', hB', -, -⟩ := hs.leadBase hM'
    obtain ⟨rfl, -, -⟩ := hs.electedUnique hB hB'
    exact ⟨M', hM', hKM⟩

end Sound

variable {nd : Node N E}

/-- The committed part of a node's log is comparable with every part of its leader's log. -/
theorem LogInv.commit_in_lead (h : LogInv m0 F nd) (hs : Sound m0 F) (hL : .lead nd.term c L ∈ F) :
    ∃ M, .lead nd.term c M ∈ F ∧ nd.log.take nd.commit <+: M := by
  rcases Nat.eq_zero_or_pos nd.commit with hz | hpos
  · exact ⟨L, hL, by simp [hz]⟩
  · obtain ⟨t, d, K, L', hc, ht, hK⟩ := h.commitKnown hpos
    obtain ⟨M, hM, hKM⟩ := hs.backed_in_lead hL (hs.committedBacked hc) (hs.committedRuled hc) ht
    exact ⟨M, hM, hK.trans hKM⟩

theorem LogInv.snoc (h : LogInv m0 F nd) (he : term e = nd.term)
    (hlead : .lead nd.term c (nd.log ++ [e]) ∈ F) (hruled : Ruled m0 F (nd.log ++ [e]))
    (role : Role N) : LogInv m0 F { nd with role := role, log := nd.log ++ [e] } := by
  refine ⟨h.good.snoc (he ▸ hlead), hruled, h.ordered.snoc ?_, ?_, ?_, ?_⟩
  · intro x hx
    exact he ▸ h.termLe x hx
  · intro x hx
    rcases mem_append.mp hx with hx | hx
    · exact h.termLe x hx
    · rw [mem_singleton.mp hx, he]
  · have := h.commitLe
    simp only [length_append, length_singleton]
    omega
  · intro hpos
    obtain ⟨t, d, K, L, hc, ht, hK⟩ := h.commitKnown hpos
    refine ⟨t, d, K, L, hc, ht, ?_⟩
    simpa only [take_append_of_le_length h.commitLe] using hK

/-- The parts of a node's log that a new leader's log replaces were not acknowledged. -/
theorem AckInv.kept_of_replace {n : N} (h : AckInv F n nd) (hs : Sound m0 F)
    {d : N} {A : List E} (hL : .lead nd.term c L ∈ F) (hM : M <+: L)
    (hnew : ¬ M <+: nd.log) (hA : .ack t n d A ∈ F) (hK : K <+: A) (hcarried : Carried F t nd.term K) :
      K <+: M := by
  have hKlog : K <+: nd.log := h.kept hA hK hcarried
  obtain ⟨B, V, hB, hext, -⟩ := hs.leadBase hL
  have hcomp : K <+: M ∨ M <+: K := by
    rcases Nat.lt_or_eq_of_le (h.ackTerm hA) with hlt | heq
    · have hKB : K <+: B := hcarried nd.term c B V hB hlt le_rfl
      exact prefix_or_prefix_of_prefix (hKB.trans hext.1) hM
    · obtain ⟨L', hL', hAL⟩ := hs.ackLed hA
      rw [heq] at hL'
      exact comparable_of_prefixes (hK.trans hAL) hM (hs.lead_comparable hL' hL)
  exact hcomp.resolve_right fun hMK => hnew (hMK.trans hKlog)

variable {vs : Finset N} {k : Nat}

namespace Inv

variable {s : State N E} {n : N}

section

variable (h : Inv m0 s)

include h

theorem sound_empty : Sound m0 (s.facts ∪ ∅) := by
  rw [union_empty]
  exact h.sound

theorem bump (ht : (s.node n).term < t) :
    Inv m0 (s.update n { s.node n with term := t, vote := none, role := .follower } ∅) := by
  have hv := h.vote n
  have ha := h.ack n
  refine h.update (by simp) h.sound_empty ?_ ?_ ?_ ?_ <;> rw [union_empty]
  · exact (h.log n).raise ht.le _ _
  · refine ⟨fun hL => (hv.voteTerm hL).trans ht.le, ?_, by simp, fun hr => (hv.requestTerm hr).trans ht.le,
      fun he => (hv.electedTerm he).trans ht.le⟩
    intro c L hL
    have := hv.voteTerm hL
    simp only at this
    omega
  · exact ⟨by simp, by simp⟩
  · exact ⟨fun hA => (ha.ackTerm hA).trans ht.le, fun hA hK hc => ha.kept hA hK (hc.weaken subset_rfl ht.le),
      ha.keptVote⟩

/-- Any loss of role, with any loss of knowledge about commits, keeps the invariant. -/
theorem stepBack (hk : k ≤ (s.node n).commit) :
    Inv m0 (s.update n { s.node n with role := .follower, commit := k } ∅) := by
  have hv := h.vote n
  have hl := h.log n
  have ha := h.ack n
  refine h.update (by simp) h.sound_empty ?_ ?_ ?_ ?_ <;> rw [union_empty]
  · refine { hl with commitLe := hk.trans hl.commitLe, commitKnown := ?_ }
    intro hpos
    obtain ⟨u, c, K, L, hc, hu, hK⟩ := hl.commitKnown (lt_of_lt_of_le hpos hk)
    exact ⟨u, c, K, L, hc, hu, (take_prefix_take_left hk).trans hK⟩
  · exact { hv with }
  · exact ⟨by simp, by simp⟩
  · exact ⟨ha.ackTerm, ha.kept, ha.keptVote⟩

theorem campaign (hmem : n ∈ memberSet m0 (s.node n).log) : Inv m0 (s.update n
      { s.node n with term := (s.node n).term + 1, vote := some n, role := .candidate {n} }
      {.request ((s.node n).term + 1) n (s.node n).log, .vote ((s.node n).term + 1) n n (s.node n).log}) := by
  have hv := h.vote n
  have hl := h.log n
  have ha := h.ack n
  have hnoVote : ∀ {c L}, .vote ((s.node n).term + 1) n c L ∉ s.facts := by
    intro c L hL
    have := hv.voteTerm hL
    omega
  have hnoRequest : ∀ {B}, .request ((s.node n).term + 1) n B ∉ s.facts := by
    intro B hB
    have := hv.requestTerm hB
    omega
  have hnoElected : ∀ {B V}, .elected ((s.node n).term + 1) n B V ∉ s.facts := by
    intro B V hB
    have := hv.electedTerm hB
    omega
  refine h.update (by simp [Fact.author]) ?_ ?_ ?_ ?_ ?_
  · refine h.sound.grow (by simp) ?_ ?_ ?_ (by simp) (by simp)
    · intro f hf
      rcases hf with rfl | rfl
      · trivial
      · exact ⟨⟨_, Or.inr (Or.inl rfl), UpToDate.refl _⟩, hl.good.mono subset_union_left, hl.ordered⟩
    · rintro t c B B' (⟨⟨⟩⟩ | ⟨⟨⟩⟩) (hB' | ⟨⟨⟩⟩ | ⟨⟨⟩⟩)
      · exact absurd hB' hnoRequest
      · rfl
    · rintro t v c c' L L' (⟨⟨⟩⟩ | ⟨⟨⟩⟩) (hL' | ⟨⟨⟩⟩ | ⟨⟨⟩⟩)
      · exact absurd hL' hnoVote
      · exact ⟨rfl, rfl⟩
  · exact (hl.mono subset_union_left).raise (Nat.le_succ _) _ _
  · refine ⟨?_, ?_, ?_, ?_, ?_⟩
    · rintro t c L (hL | ⟨⟨⟩⟩ | ⟨⟨⟩⟩)
      · exact (hv.voteTerm hL).trans (Nat.le_succ _)
      · exact le_rfl
    · rintro c L (hL | ⟨⟨⟩⟩ | ⟨⟨⟩⟩)
      · exact absurd hL hnoVote
      · rfl
    · rintro c hc
      obtain rfl := Option.some.inj hc
      exact ⟨_, Or.inr (Or.inr rfl)⟩
    · rintro t B (hB | ⟨⟨⟩⟩ | ⟨⟨⟩⟩)
      · exact (hv.requestTerm hB).trans (Nat.le_succ _)
      · exact le_rfl
    · rintro t B V (hB | ⟨⟨⟩⟩ | ⟨⟨⟩⟩)
      exact (hv.electedTerm hB).trans (Nat.le_succ _)
  · refine ⟨?_, by simp⟩
    intro vs hvs
    simp only [Role.candidate.injEq] at hvs
    subst hvs
    refine ⟨Or.inr (Or.inl rfl), Finset.mem_singleton_self n, ?_, ?_, ?_⟩
    · intro w hw
      obtain rfl := Finset.mem_singleton.mp hw
      exact ⟨hmem, _, Or.inr (Or.inr rfl)⟩
    · intro e he
      exact Nat.lt_succ_of_le (hl.termLe e he)
    · rintro B V (hB | ⟨⟨⟩⟩ | ⟨⟨⟩⟩)
      exact hnoElected hB
  · refine ⟨?_, ?_, ?_⟩
    · rintro t c A (hA | ⟨⟨⟩⟩ | ⟨⟨⟩⟩)
      exact (ha.ackTerm hA).trans (Nat.le_succ _)
    · rintro t c A K (hA | ⟨⟨⟩⟩ | ⟨⟨⟩⟩) hK hc
      exact ha.kept hA hK (hc.weaken subset_union_left (Nat.le_succ _))
    · rintro u d A t c L K (hA | ⟨⟨⟩⟩ | ⟨⟨⟩⟩) (hL | ⟨⟨⟩⟩ | ⟨⟨⟩⟩) hu hK hc
      · exact ha.keptVote hA hL hu hK (hc.weaken subset_union_left le_rfl)
      · exact ha.kept hA hK (hc.weaken subset_union_left (Nat.le_succ _))

/-- A vote for a candidate that asked for it with an up-to-date log. -/
theorem grant {B : List E} (hreq : .request (s.node n).term c B ∈ s.facts)
    (hfree : (s.node n).vote = none) (hup : UpToDate B (s.node n).log) :
    Inv m0 (s.update n { s.node n with vote := some c } {.vote (s.node n).term n c (s.node n).log}) := by
  have hv := h.vote n
  have hl := h.log n
  have hr := h.role n
  have ha := h.ack n
  have hnoVote : ∀ {d L}, .vote (s.node n).term n d L ∉ s.facts := by
    intro d L hL
    have := hv.voteNode hL
    rw [hfree] at this
    exact absurd this (by simp)
  refine h.update (by simp [Fact.author]) ?_ ?_ ?_ ?_ ?_
  · refine h.sound.grow (by simp) ?_ (by simp) ?_ (by simp) (by simp)
    · rintro f rfl
      exact ⟨⟨B, Or.inl hreq, hup⟩, hl.good.mono subset_union_left, hl.ordered⟩
    · rintro t v d d' L L' ⟨⟨⟩⟩ (hL' | ⟨⟨⟩⟩)
      · exact absurd hL' hnoVote
      · exact ⟨rfl, rfl⟩
  · exact { hl.mono subset_union_left with }
  · refine ⟨?_, ?_, ?_, ?_, ?_⟩
    · rintro t d L (hL | ⟨⟨⟩⟩)
      · exact hv.voteTerm hL
      · exact le_rfl
    · rintro d L (hL | ⟨⟨⟩⟩)
      · exact absurd hL hnoVote
      · rfl
    · intro d hd
      obtain rfl := Option.some.inj hd
      exact ⟨_, Or.inr rfl⟩
    · rintro t B (hB | ⟨⟨⟩⟩)
      exact hv.requestTerm hB
    · rintro t B V (hB | ⟨⟨⟩⟩)
      exact hv.electedTerm hB
  · exact hr.carry rfl subset_union_left rfl rfl (by simp) (by simp)
  · refine ha.carry rfl subset_union_left hv (by simp +contextual) ?_ (fun hA hK hc => ha.kept hA hK hc)
    rintro t d L (hL | ⟨⟨⟩⟩)
    · exact Or.inl hL
    · exact Or.inr ⟨rfl, rfl⟩

theorem collect {v : N} (hrole : (s.node n).role = .candidate vs) (hvote : .vote (s.node n).term v n L ∈ s.facts)
    (hmem : v ∈ memberSet m0 (s.node n).log) :
      Inv m0 (s.update n { s.node n with role := .candidate (insert v vs) } ∅) := by
  have hv := h.vote n
  have hl := h.log n
  have ha := h.ack n
  obtain ⟨hreq, hself, hvotes, hterm, helected⟩ := (h.role n).candidate hrole
  refine h.update (by simp) h.sound_empty ?_ ?_ ?_ ?_ <;> rw [union_empty]
  · exact { hl with }
  · exact { hv with }
  · refine ⟨?_, by simp⟩
    intro ws hws
    simp only [Role.candidate.injEq] at hws
    subst hws
    refine ⟨hreq, Finset.mem_insert_of_mem hself, fun w hw => ?_, hterm, helected⟩
    rcases Finset.mem_insert.mp hw with rfl | hw
    · exact ⟨hmem, L, hvote⟩
    · exact hvotes w hw
  · exact ⟨ha.ackTerm, ha.kept, ha.keptVote⟩

theorem candidate_ballot (hrole : (s.node n).role = .candidate vs)
    (hmaj : majority (memberSet m0 (s.node n).log).card ≤ vs.card) :
    Ballot m0 s.facts (s.node n).term n (s.node n).log vs := by
  have hl := h.log n
  obtain ⟨hreq, hself, hvotes, hterm, helected⟩ := (h.role n).candidate hrole
  refine ⟨hl.good, hl.ruled, hl.ordered, hterm, ⟨fun w hw => (hvotes w hw).1, hmaj⟩, hself, ?_⟩
  intro w hw
  obtain ⟨-, L, hL⟩ := hvotes w hw
  obtain ⟨⟨B, hB, hup⟩, hgood, hord⟩ := h.sound.justified _ hL
  obtain rfl := h.sound.requestUnique hB hreq
  refine ⟨L, hL, hup, hgood, hord, ?_⟩
  intro u d A K hA hu hK hothers
  refine (h.ack w).keptVote hA hL hu hK ?_
  intro t' c' B' V' hB' hlt hle
  refine hothers t' c' B' V' hB' hlt hle ?_
  rintro ⟨rfl, rfl⟩
  exact helected B' V' hB'

theorem lead (hrole : (s.node n).role = .candidate vs)
    (hmaj : majority (memberSet m0 (s.node n).log).card ≤ vs.card)
    (hterm : Entry.term e = (s.node n).term) (hmem : members e = none) :
    Inv m0 (s.update n { s.node n with role := .leader, log := (s.node n).log ++ [e] }
      {.elected (s.node n).term n (s.node n).log vs, .lead (s.node n).term n ((s.node n).log ++ [e]),
        .ack (s.node n).term n n ((s.node n).log ++ [e])}) := by
  have hv := h.vote n
  have hl := h.log n
  have ha := h.ack n
  obtain ⟨-, -, -, -, helected⟩ := (h.role n).candidate hrole
  have hballot := h.candidate_ballot hrole hmaj
  have hnoLead : ∀ {L}, .lead (s.node n).term n L ∉ s.facts := by
    intro L hL
    obtain ⟨B, V, hB, -, -⟩ := h.sound.leadBase hL
    exact helected B V hB
  have hruled := (hl.ruled.snoc_plain (e := e) hmem)
  refine h.update (by simp [Fact.author]) ?_ ?_ ?_ ?_ ?_
  · refine h.sound.grow ?_ ?_ (by simp) (by simp) ?_ ?_
    · rintro u v d A (⟨⟨⟩⟩ | ⟨⟨⟩⟩ | ⟨⟨⟩⟩) t c L hL
      exact hv.voteTerm hL
    · rintro f (rfl | rfl | rfl)
      · refine hballot.grow subset_union_left ?_
        rintro u v d A (hA | ⟨⟨⟩⟩ | ⟨⟨⟩⟩ | ⟨⟨⟩⟩)
        · exact Or.inl hA
        · exact Or.inr fun hL => hv.voteTerm hL
      · exact ⟨⟨_, vs, Or.inr (Or.inl rfl), (Extends.refl _ _).snoc hterm, by simp⟩,
          hruled.mono subset_union_left, Or.inr (Or.inr (Or.inr rfl))⟩
      · exact ⟨_, Or.inr (Or.inr (Or.inl rfl)), prefix_rfl⟩
    · rintro t c c' B B' V V' (⟨⟨⟩⟩ | ⟨⟨⟩⟩ | ⟨⟨⟩⟩) (hB' | ⟨⟨⟩⟩ | ⟨⟨⟩⟩ | ⟨⟨⟩⟩)
      · obtain rfl := h.sound.ballot_unique hballot hB'
        exact absurd hB' (helected _ _)
      · exact ⟨rfl, rfl, rfl⟩
    · rintro t c L L' (⟨⟨⟩⟩ | ⟨⟨⟩⟩ | ⟨⟨⟩⟩) (hL' | ⟨⟨⟩⟩ | ⟨⟨⟩⟩ | ⟨⟨⟩⟩)
      · exact absurd hL' hnoLead
      · exact Or.inl prefix_rfl
  · exact (hl.mono subset_union_left).snoc hterm (Or.inr (Or.inr (Or.inl rfl)))
      (hruled.mono subset_union_left) .leader
  · refine hv.carry rfl subset_union_left rfl (by simp) (by simp) ?_
    rintro t B V (hB | ⟨⟨⟩⟩ | ⟨⟨⟩⟩ | ⟨⟨⟩⟩)
    · exact Or.inl hB
    · exact Or.inr rfl
  · refine ⟨by simp, ?_⟩
    intro _
    refine ⟨Or.inr (Or.inr (Or.inl rfl)), ?_⟩
    rintro L (hL | ⟨⟨⟩⟩ | ⟨⟨⟩⟩ | ⟨⟨⟩⟩)
    · exact absurd hL hnoLead
    · exact prefix_rfl
  · refine ha.carry rfl subset_union_left hv ?_ (by simp +contextual)
      (fun hA hK hc => (ha.kept hA hK hc).trans (prefix_append _ _))
    rintro t c A (hA | ⟨⟨⟩⟩ | ⟨⟨⟩⟩ | ⟨⟨⟩⟩)
    · exact Or.inl hA
    · exact Or.inr ⟨rfl, prefix_rfl⟩

/-- A leader's log grows by an entry of its term that the rule for changes of the members
allows. -/
theorem extend (hrole : (s.node n).role = .leader)
    (hterm : Entry.term e = (s.node n).term) (hruled : Ruled m0 s.facts ((s.node n).log ++ [e])) :
    Inv m0 (s.update n { s.node n with log := (s.node n).log ++ [e] }
      {.lead (s.node n).term n ((s.node n).log ++ [e]),
      .ack (s.node n).term n n ((s.node n).log ++ [e])}) := by
  have hv := h.vote n
  have hl := h.log n
  have ha := h.ack n
  obtain ⟨hlead, hmax⟩ := (h.role n).leader hrole
  obtain ⟨B, V, hB, hext, hlen⟩ := h.sound.leadBase hlead
  refine h.update (by simp [Fact.author]) ?_ ?_ ?_ ?_ ?_
  · refine h.sound.grow ?_ ?_ (by simp) (by simp) (by simp) ?_
    · rintro u v d A (⟨⟨⟩⟩ | ⟨⟨⟩⟩) t c L hL
      exact hv.voteTerm hL
    · rintro f (rfl | rfl)
      · exact ⟨⟨B, V, Or.inl hB, hext.snoc hterm, by simp; omega⟩, hruled.mono subset_union_left,
          Or.inr (Or.inr rfl)⟩
      · exact ⟨_, Or.inr (Or.inl rfl), prefix_rfl⟩
    · rintro t c L L' (⟨⟨⟩⟩ | ⟨⟨⟩⟩) (hL' | ⟨⟨⟩⟩ | ⟨⟨⟩⟩)
      · exact Or.inr ((hmax L' hL').trans (prefix_append _ _))
      · exact Or.inl prefix_rfl
  · exact (hl.mono subset_union_left).snoc hterm (Or.inr (Or.inl rfl)) (hruled.mono subset_union_left) _
  · exact hv.carry rfl subset_union_left rfl (by simp) (by simp) (by simp +contextual)
  · refine ⟨?_, ?_⟩
    · intro vs hvs
      rw [show (s.node n).role = .candidate vs from hvs] at hrole
      exact absurd hrole (by simp)
    · intro _
      refine ⟨Or.inr (Or.inl rfl), ?_⟩
      rintro L (hL | ⟨⟨⟩⟩ | ⟨⟨⟩⟩)
      · exact (hmax L hL).trans (prefix_append _ _)
      · exact prefix_rfl
  · refine ha.carry rfl subset_union_left hv ?_ (by simp +contextual)
      (fun hA hK hc => (ha.kept hA hK hc).trans (prefix_append _ _))
    rintro t c A (hA | ⟨⟨⟩⟩ | ⟨⟨⟩⟩)
    · exact Or.inl hA
    · exact Or.inr ⟨rfl, prefix_rfl⟩

/-- The commit of a leader is backed by the majority that acknowledged it. -/
theorem leader_backed {Q : Finset N} (hrole : (s.node n).role = .leader)
    (hpos : 0 < k) (hlen : k ≤ (s.node n).log.length) (hterm : lastTerm ((s.node n).log.take k) = (s.node n).term)
    (hmaj : IsMajority (memberSet m0 (s.node n).log) Q)
    (hack : ∀ v ∈ Q, ∃ A, .ack (s.node n).term v n A ∈ s.facts ∧ k ≤ A.length) :
    Backed m0 s.facts (s.node n).term n ((s.node n).log.take k) (s.node n).log := by
  obtain ⟨hlead, hmax⟩ := (h.role n).leader hrole
  obtain ⟨B, V, hB, hext, -⟩ := h.sound.leadBase hlead
  have hK : (s.node n).log.take k <+: (s.node n).log := take_prefix k _
  have hKlen : ((s.node n).log.take k).length = k := by simp [hlen]
  refine ⟨⟨B, V, hB, hext, ?_⟩, hK, ⟨_, hlead, hK⟩, Q, hmaj, ?_⟩
  · -- a prefix within the base would end in an earlier term
    by_contra hle
    have hKB : (s.node n).log.take k <+: B :=
      prefix_of_prefix_length_le hK hext.1 (by omega)
    obtain ⟨P, e, hP, -⟩ := exists_snoc_of_length_lt (B := []) (K := (s.node n).log.take k)
      (by rw [hKlen]; exact hpos)
    rw [hP, lastTerm_snoc] at hterm
    have := (h.sound.ballot hB).below e ((hP ▸ hKB).subset (by simp))
    omega
  · intro v hv
    obtain ⟨A, hA, hkA⟩ := hack v hv
    obtain ⟨L, hL, hAL⟩ := h.sound.ackLed hA
    exact ⟨A, hA, prefix_of_prefix_length_le hK (hAL.trans (hmax L hL)) (by omega)⟩

theorem commit {Q : Finset N} (hrole : (s.node n).role = .leader)
    (hnew : (s.node n).commit < k) (hlen : k ≤ (s.node n).log.length)
    (hterm : lastTerm ((s.node n).log.take k) = (s.node n).term)
    (hmaj : IsMajority (memberSet m0 (s.node n).log) Q)
    (hack : ∀ v ∈ Q, ∃ A, .ack (s.node n).term v n A ∈ s.facts ∧ k ≤ A.length) :
      Inv m0 (s.update n { s.node n with commit := k }
      {.committed (s.node n).term n ((s.node n).log.take k) (s.node n).log}) := by
  have hv := h.vote n
  have hl := h.log n
  have ha := h.ack n
  have hbacked := h.leader_backed hrole (by omega) hlen hterm hmaj hack
  refine h.update (by simp [Fact.author]) ?_ ?_ ?_ ?_ ?_
  · refine h.sound.grow (by simp) ?_ (by simp) (by simp) (by simp) (by simp)
    rintro f rfl
    exact ⟨hbacked.mono subset_union_left, Or.inl ((h.role n).leader hrole).1⟩
  · exact ⟨hl.good.mono subset_union_left, hl.ruled.mono subset_union_left, hl.ordered,
      hl.termLe, hlen, fun _ => ⟨_, _, _, _, Or.inr rfl, le_rfl, prefix_rfl⟩⟩
  · exact hv.carry rfl subset_union_left rfl (by simp) (by simp) (by simp +contextual)
  · exact (h.role n).carry rfl subset_union_left rfl rfl (by simp) (by simp)
  · exact ha.carry rfl subset_union_left hv (by simp +contextual) (by simp +contextual)
      (fun hA hK hc => ha.kept hA hK hc)

/-- An acknowledgement of a part of the leader's log that the new log of the node has; the node
follows or keeps its role, and no acknowledged part of its old log is lost. -/
theorem acknowledge {A : List E} (hterm : nd.term = (s.node n).term) (hvote : nd.vote = (s.node n).vote)
    (hlead : .lead (s.node n).term c L ∈ s.facts) (hA : A <+: L) (hheld : A <+: nd.log)
    (hlog : LogInv m0 s.facts nd)
    (hrole : nd.role = .follower ∨ (nd.role = (s.node n).role ∧ nd.log = (s.node n).log))
    (hkeep : ∀ {t d A' K}, .ack t n d A' ∈ s.facts → K <+: A' → Carried s.facts t (s.node n).term K →
      K <+: nd.log) : Inv m0 (s.update n nd {.ack (s.node n).term n c A}) := by
  have hv := h.vote n
  refine h.update (by simp [Fact.author]) ?_ (hlog.mono subset_union_left) ?_ ?_ ?_
  · refine h.sound.grow ?_ ?_ (by simp) (by simp) (by simp) (by simp)
    · rintro u v d A' ⟨⟨⟩⟩ t c' L' hL'
      exact hv.voteTerm hL'
    · rintro f rfl
      exact ⟨L, Or.inl hlead, hA⟩
  · exact hv.carry hterm subset_union_left hvote (by simp) (by simp) (by simp +contextual)
  · rcases hrole with hrole | ⟨hrole, hlog⟩
    · exact RoleInv.of_follower hrole
    · exact (h.role n).carry hterm subset_union_left hrole hlog (by simp) (by simp)
  · refine (h.ack n).carry hterm subset_union_left hv ?_ (by simp +contextual) hkeep
    rintro t d A' (hA' | ⟨⟨⟩⟩)
    · exact Or.inl hA'
    · exact Or.inr ⟨rfl, hheld⟩

/-- The log after a part of the leader's log has replaced it. -/
theorem logInv_of_replace (hlead : .lead (s.node n).term c L ∈ s.facts) (hM : M <+: L)
    (hnew : ¬ M <+: (s.node n).log)
    (role : Role N) : LogInv m0 s.facts { s.node n with role := role, log := M } := by
  have hl := h.log n
  obtain ⟨L', hL', hcommit⟩ := hl.commit_in_lead h.sound hlead
  have hkeep : (s.node n).log.take (s.node n).commit <+: M := by
    rcases comparable_of_prefixes hcommit hM (h.sound.lead_comparable hL' hlead) with hle | hle
    · exact hle
    · exact absurd (hle.trans (List.take_prefix _ _)) hnew
  have hlen : ((s.node n).log.take (s.node n).commit).length = (s.node n).commit := by
    simp [hl.commitLe]
  refine ⟨(h.sound.lead_good hlead).restrict hM, (h.sound.leadRuled hlead).restrict hM,
    (h.sound.lead_ordered hlead).restrict hM,
    fun e he => h.sound.lead_term_le hlead e (hM.subset he), ?_, ?_⟩
  · have := hkeep.length_le
    simp only at this ⊢
    omega
  · intro hpos
    obtain ⟨t, d, K, L2, hc, ht, hK⟩ := hl.commitKnown hpos
    refine ⟨t, d, K, L2, hc, ht, ?_⟩
    rw [prefix_iff_eq_take, hlen] at hkeep
    simpa only [← hkeep] using hK

theorem learn (hc : .committed t c K L ∈ s.facts) (ht : t ≤ (s.node n).term) (hlen : k ≤ (s.node n).log.length)
    (hk : (s.node n).log.take k <+: K) : Inv m0 (s.update n { s.node n with commit := k } ∅) := by
  have hv := h.vote n
  have hl := h.log n
  have hr := h.role n
  have ha := h.ack n
  refine h.update (by simp) h.sound_empty ?_ ?_ ?_ ?_ <;> rw [union_empty]
  · exact { hl with commitLe := hlen, commitKnown := fun _ => ⟨t, c, K, L, hc, ht, hk⟩ }
  · exact { hv with }
  · exact ⟨hr.candidate, hr.leader⟩
  · exact ⟨ha.ackTerm, ha.kept, ha.keptVote⟩

theorem step {new : Set (Fact N E)} (hstep : Local m0 s.facts n (s.node n) nd new) :
    Inv m0 (s.update n nd new) := by
  have hl := h.log n
  have ha := h.ack n
  cases hstep with
  | bump t hterm => exact h.bump hterm
  | demote => exact h.stepBack le_rfl
  | campaign hmem => exact h.campaign hmem
  | grant c B hreq hfree hup => exact h.grant hreq hfree hup
  | collect v L vs hrole hvote hmem => exact h.collect hrole hvote hmem
  | lead vs e hrole hmaj hterm hmem => exact h.lead hrole hmaj hterm hmem
  | propose e hrole hterm hmem => exact h.extend hrole hterm (hl.ruled.snoc_plain hmem)
  | reconfigure e C K L hrole hterm hmem hc hlog hsettled hself hadj =>
    refine h.extend hrole hterm (hl.ruled.snoc_change hmem ?_ hsettled hadj hself)
    -- no member changed since the commit, so the same majority backs it in the longer log
    obtain ⟨⟨B, V, hB, hext, hlen⟩, hKL, hled, Q, hQ, hack⟩ := h.sound.committedBacked hc
    obtain ⟨hlead, -⟩ := (h.role n).leader hrole
    obtain ⟨B', V', hB', hext', -⟩ := h.sound.leadBase hlead
    obtain ⟨-, rfl, -⟩ := h.sound.electedUnique hB hB'
    have hmem' : memberSet m0 (s.node n).log = memberSet m0 L :=
      memberSet_eq_of_changes_within m0 hlog (fun P x hP hx => (hsettled P x hP hx).trans hKL)
    rw [hterm]
    exact ⟨⟨B, V, hB, hext', hlen⟩, hKL.trans hlog, hled, Q, hmem' ▸ hQ, hack⟩
  | commit k Q hrole hnew hlen hterm hmaj hack => exact h.commit hrole hnew hlen hterm hmaj hack
  | acceptHeld c L M hlead hM hheld =>
    exact h.acknowledge rfl rfl hlead hM hheld { hl with } (Or.inl rfl) (fun hA hK hc => ha.kept hA hK hc)
  | acceptNew c L M hlead hM hnew =>
    exact h.acknowledge rfl rfl hlead hM prefix_rfl (h.logInv_of_replace hlead hM hnew _)
      (Or.inl rfl) (fun hA hK hc => ha.kept_of_replace h.sound hlead hM hnew hA hK hc)
  | learn t c K L k hc hterm hnew hlen hk => exact h.learn hc hterm hlen hk
  | ackCommitted c L k hlead hk =>
    obtain ⟨M, hM, hcommit⟩ := hl.commit_in_lead h.sound hlead
    exact h.acknowledge rfl rfl hM ((take_prefix_take_left hk).trans hcommit)
      (List.take_prefix _ _) hl (Or.inr ⟨rfl, rfl⟩) (fun hA hK hc => ha.kept hA hK hc)
  | restart k hk => exact h.stepBack hk

end

theorem initial : Inv m0 (State.initial : State N E) := by
  constructor
  · constructor <;> simp [State.initial]
  · intro n
    constructor <;> simp [State.initial, Good, Ruled, Ordered]
  · intro n
    constructor <;> simp [State.initial]
  · intro n
    constructor <;> simp [State.initial]
  · intro n
    constructor <;> simp [State.initial]

end Inv

variable {s : State N E}

theorem Reachable.inv (h : Reachable m0 s) : Inv m0 s := by
  induction h with
  | initial => exact Inv.initial
  | step _ hstep ih => exact ih.step hstep

theorem Reachable.request_pos (h : Reachable m0 s) {B : List E} (hB : .request t c B ∈ s.facts) : 0 < t := by
  induction h with
  | initial => cases hB
  | step _ hstep ih =>
    rcases hB with hB | hB
    · exact ih hB
    · cases hstep with
      | campaign hmem =>
        rcases hB with ⟨⟨⟩⟩ | ⟨⟨⟩⟩
        exact Nat.succ_pos _
      | _ => simp at hB

theorem Reachable.term_pos (h : Reachable m0 s) (hL : Good s.facts L) : ∀ e ∈ L, 0 < Entry.term e := by
  intro e he
  obtain ⟨P, R, rfl⟩ := append_of_mem he
  have hs := h.inv.sound
  obtain ⟨c, B, V, hB⟩ := hs.exists_elected (P := P) (e := e) hL ⟨R, by simp⟩
  obtain ⟨L', hL', -⟩ := (hs.ballot hB).voters c (hs.ballot hB).self
  obtain ⟨⟨B', hB', -⟩, -⟩ := hs.justified _ hL'
  exact h.request_pos hB'

end LogConsensus
