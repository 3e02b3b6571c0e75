import AnimusDb.ConsensusProtocol

/-! Leader completeness and election safety from the relations between facts. Members change one at
a time and only after the change before is committed, so the members of two logs differ by at most
one at the point where the logs branch; majorities then meet, and the common voter carries what it
acknowledged into the election. -/

open QuorumSets List

namespace LogConsensus

open Entry

variable {N E : Type} [DecidableEq N] [Entry N E] {m0 V : Finset N} {F : Set (Fact N E)} {L : List E} {t : Nat}

variable {c c' : N} {B P : List E} {e : E}

namespace Sound

section

variable (hs : Sound m0 F)

include hs

theorem lead_comparable {L' : List E} (h : .lead t c L ∈ F) (h' : .lead t c' L' ∈ F) :
    L <+: L' ∨ L' <+: L := by
  obtain ⟨B, V, hB, -, -⟩ := hs.leadBase h
  obtain ⟨B', V', hB', -, -⟩ := hs.leadBase h'
  obtain ⟨rfl, -, -⟩ := hs.electedUnique hB hB'
  exact hs.leadChain h h'

theorem comparable_of_term_eq {M Q : List E} {f : E} (hL : Good F L)
    (hM : Good F M) (hP : P ++ [e] <+: L) (hQ : Q ++ [f] <+: M) (hterm : term e = term f) :
    P ++ [e] <+: Q ++ [f] ∨ Q ++ [f] <+: P ++ [e] := by
  obtain ⟨c, L', hc, hPL⟩ := hL P e hP
  obtain ⟨d, M', hd, hQM⟩ := hM Q f hQ
  rw [hterm] at hc
  exact comparable_of_prefixes hPL hQM (hs.lead_comparable hc hd)

/-- Log matching: logs whose entries at one position have the same term agree up to it. -/
theorem take_eq_of_lastTerm_eq {M : List E} {k : Nat} (hL : Good F L) (hM : Good F M) (hkL : k ≤ L.length)
    (hkM : k ≤ M.length) (hterm : lastTerm (L.take k) = lastTerm (M.take k)) : L.take k = M.take k := by
  have hzero {L : List E} (hk : k ≤ L.length) (hnil : L.take k = []) : k = 0 := by
    rw [← length_take_of_le hk, hnil, length_nil]
  rcases eq_nil_or_concat (L.take k) with hnil | ⟨P, e, hP⟩
  · simp [hzero hkL hnil]
  rcases eq_nil_or_concat (M.take k) with hnil | ⟨Q, f, hQ⟩
  · simp [hzero hkM hnil]
  rw [concat_eq_append] at hP hQ
  have hlen : (L.take k).length = (M.take k).length := by simp [hkL, hkM]
  rw [hP, hQ, lastTerm_snoc, lastTerm_snoc] at hterm
  rw [hP, hQ] at hlen ⊢
  rcases hs.comparable_of_term_eq hL hM (hP ▸ take_prefix k L) (hQ ▸ take_prefix k M) hterm with h | h
  · exact h.eq_of_length hlen
  · exact (h.eq_of_length hlen.symm).symm

theorem base_prefix (hL : Good F L) (hP : P ++ [e] <+: L) (hB : .elected (term e) c B V ∈ F) : B <+: P := by
  obtain ⟨d, L', hd, hPL⟩ := hL P e hP
  obtain ⟨B', V', hB', hext, -⟩ := hs.leadBase hd
  obtain ⟨-, rfl, -⟩ := hs.electedUnique hB hB'
  rcases prefix_or_prefix_of_prefix hPL hext.1 with hPB | hBP
  · have he := (hs.ballot hB).below e (hPB.subset (by simp))
    omega
  · rcases prefix_concat_iff.mp hBP with rfl | hBP
    · have he := (hs.ballot hB).below e (by simp)
      omega
    · exact hBP

theorem exists_elected (hL : Good F L) (hP : P ++ [e] <+: L) : ∃ c B V, .elected (term e) c B V ∈ F := by
  obtain ⟨c, L', hc, -⟩ := hL P e hP
  obtain ⟨B, V, hB, -, -⟩ := hs.leadBase hc
  exact ⟨c, B, V, hB⟩

/-- The log of a leader is in order, also past what it has announced. -/
theorem ordered_of_extends (hB : .elected t c B V ∈ F) (hext : Extends t B L) : Ordered L := by
  obtain ⟨⟨R, rfl⟩, hterm⟩ := hext
  have hb := hs.ballot hB
  have hR : ∀ e ∈ R, term e = t := by
    intro e he
    obtain ⟨R1, R2, rfl⟩ := append_of_mem he
    exact hterm (B ++ R1) e ⟨R2, by simp⟩ (by simp)
  unfold Ordered
  rw [pairwise_append]
  refine ⟨hb.ordered, ?_, ?_⟩
  · refine List.Pairwise.imp_of_mem ?_ (pairwise_of_forall (fun _ _ => trivial))
    intro a b ha hb' _
    rw [hR a ha, hR b hb']
  · intro a ha b hb'
    rw [hR b hb']
    exact (hb.below a ha).le

theorem term_le_of_extends (hB : .elected t c B V ∈ F) (hext : Extends t B L) (hP : P ++ [e] <+: L) :
    term e ≤ t := by
  by_cases he : term e = t
  · exact he.le
  · exact ((hs.ballot hB).below e ((hext.prefix_base hP he).subset (by simp))).le

end

end Sound

variable {B' : List E} {V' : Finset N}

/-- A log changes the members at most once past a prefix that has all commits its changes rest on. -/
theorem Ruled.changesOnce {D : List E} (hL : Ruled m0 F L)
    (hD : ∀ P e d K, P ++ [e] <+: L → Backed m0 F (term e) d K P → K <+: D) : ChangesOnce m0 D L := by
  intro P e C hDP hP he
  obtain ⟨d, K, hK, hsettled, hadj, -⟩ := hL P e C hP he
  have hKD := hD P e d K hP hK
  have hmem := memberSet_eq_of_changes_within m0 hDP (fun Q x hQ hx => (hsettled Q x hQ hx).trans hKD)
  exact ⟨K, hKD, hK.ne_nil, hK.lastTerm_eq, hmem, hadj⟩

omit [Entry N E] in
theorem not_past_common {D M : List E} (hmax : ∀ P, P <+: L → P <+: M → P <+: D) (hDP : D <+: P)
    (hL : P ++ [e] <+: L) (hM : P ++ [e] <+: M) : False := by
  have h1 := prefix_snoc_length (hmax _ hL hM)
  have h2 := hDP.length_le
  omega

/-- What is committed in an earlier term is in the candidate's log, if it is in the log of every
other leader up to that term. The induction is on the log in which the part is committed: a change
of the members in it rests on an earlier commit. -/
theorem Ballot.covers (hs : Sound m0 F) {t' : Nat} (hb : Ballot m0 F t' c' B' V')
    (hothers : ∀ {u d B V}, .elected u d B V ∈ F → u ≤ t' → ¬ (u = t' ∧ d = c') →
      ∀ {t c K L}, t < u → Backed m0 F t c K L → Ruled m0 F L → K <+: B)
    {K : List E} (ht : t < t') (hK : Backed m0 F t c K L) (hL : Ruled m0 F L) : K <+: B' := by
  induction hn : L.length using Nat.strong_induction_on generalizing t c K L with
  | _ n ih =>
    subst hn
    by_contra hKB
    obtain ⟨B, V, hB, hext, hlen⟩ := hK.base
    obtain ⟨LK, hLK, hKLK⟩ := hK.led
    have hordL : Ordered L := hs.ordered_of_extends hB hext
    obtain ⟨D, hDL, hDB, hmax⟩ := exists_common_prefix L B'
    -- an entry of `B'` of a term past `t` has the committed part before it
    have hlater : ∀ P e, P ++ [e] <+: B' → ¬ t < term e := by
      intro P e hP hlt
      obtain ⟨d, B3, V3, hB3⟩ := hs.exists_elected hb.good hP
      have hterm := hb.below e (hP.subset (by simp))
      have hKB3 : K <+: B3 := hothers hB3 hterm.le (by omega) hlt hK hL
      exact hKB ((hKB3.trans (hs.base_prefix hb.good hP hB3)).trans (prefix_of_snoc hP))
    have hcL : ChangesOnce m0 D L := by
      refine hL.changesOnce fun P e d K2 hP hK2 => hmax K2 (hK2.inLog.trans (prefix_of_snoc hP)) ?_
      have hterm := hs.term_le_of_extends hB hext hP
      exact ih P.length (prefix_snoc_length hP) (by omega) hK2 (hL.restrict (prefix_of_snoc hP)) rfl
    have hcB : ChangesOnce m0 D B' := by
      refine hb.ruled.changesOnce fun P e d K3 hP hK3 => ?_
      have hK3B : K3 <+: B' := hK3.inLog.trans (prefix_of_snoc hP)
      refine hmax K3 ?_ hK3B
      rcases lt_trichotomy (term e) t with hlt | heq | hgt
      · exact (hothers hB ht.le (by omega) hlt hK3 (hb.ruled.restrict (prefix_of_snoc hP))).trans hext.1
      · obtain ⟨L3, hL3, hK3L3⟩ := hK3.led
        rw [heq] at hL3
        rcases comparable_of_prefixes hKLK hK3L3 (hs.lead_comparable hLK hL3) with h | h
        · exact absurd (h.trans hK3B) hKB
        · exact h.trans hK.inLog
      · exact absurd hgt (hlater P e hP)
    have hboth : ∀ P e Q f, D <+: P → P ++ [e] <+: L → D <+: Q → Q ++ [f] <+: B' → term e = term f → False := by
      intro P e Q f hDP hP hDQ hQ hterm
      by_cases het : term e = t
      · -- the change is of the term of the commit: compare with the committed part
        obtain ⟨d, M, hM, hQM⟩ := hb.good Q f hQ
        rw [← hterm, het] at hM
        rcases comparable_of_prefixes hKLK hQM (hs.lead_comparable hLK hM) with h | h
        · exact hKB (h.trans hQ)
        · exact not_past_common hmax hDQ (h.trans hK.inLog) hQ
      · have hPB2 := hext.prefix_base hP het
        rcases hs.comparable_of_term_eq (hs.ballot hB).good hb.good hPB2 hQ hterm with h | h
        · exact not_past_common hmax hDP hP (h.trans hQ)
        · exact not_past_common hmax hDQ (h.trans hP) hQ
    have hadj := adjacent_of_changesOnce hDL hDB hordL hb.ordered hcL hcB hboth
    obtain ⟨Q, hQ, hack⟩ := hK.quorum
    obtain ⟨v, hvQ, hvV⟩ := hQ.inter_of_adjacent hb.quorum hadj
    obtain ⟨A, hA, hKA⟩ := hack v hvQ
    obtain ⟨Lv, -, hup, hgood, hord, hpromise⟩ := hb.voters v hvV
    have hKv : K <+: Lv := hpromise t c A K hA ht hKA
      (fun u d B'' V'' hB'' htu hu hne => hothers hB'' hu hne htu hK hL)
    have hKt : t ≤ lastTerm Lv := hK.lastTerm_eq ▸ hord.lastTerm_mono hK.ne_nil hKv
    rcases eq_nil_or_concat B' with rfl | ⟨P, e, rfl⟩
    · rcases hup with hlt | ⟨-, hle⟩
      · simp [lastTerm] at hlt
      · have : Lv = [] := length_eq_zero_iff.mp (by simpa using hle)
        exact hK.ne_nil (prefix_nil.mp (this ▸ hKv))
    · rw [concat_eq_append] at *
      rcases hup with hlt | ⟨heq, hle⟩
      · rw [lastTerm_snoc] at hlt
        exact hlater P e prefix_rfl (by omega)
      · rcases eq_nil_or_concat Lv with rfl | ⟨P', e', rfl⟩
        · exact hK.ne_nil (prefix_nil.mp hKv)
        · rw [concat_eq_append] at *
          rw [lastTerm_snoc, lastTerm_snoc] at heq
          rcases hs.comparable_of_term_eq hgood hb.good prefix_rfl prefix_rfl heq.symm with h | h
          · exact hKB (hKv.trans h)
          · exact hKB (h.eq_of_length_le hle ▸ hKv)

/-- Past the point where two candidates' logs of one term branch, each changes the members at most
once. -/
theorem Ballot.changesOnce {D : List E} (hb : Ballot m0 F t c B V)
    (hcover : ∀ {u d K L}, u < t → Backed m0 F u d K L → Ruled m0 F L → K <+: B')
    (hmax : ∀ P, P <+: B → P <+: B' → P <+: D) : ChangesOnce m0 D B := by
  refine hb.ruled.changesOnce fun P e d K hP hK => hmax K (hK.inLog.trans (prefix_of_snoc hP)) ?_
  exact hcover (hb.below e (hP.subset (by simp))) hK (hb.ruled.restrict (prefix_of_snoc hP))

namespace Sound

/-- Leader completeness: a leader starts with everything that was committed in earlier terms. -/
theorem complete (hs : Sound m0 F) {t' : Nat} {K : List E}
    (hB' : .elected t' c' B' V' ∈ F) (ht : t < t') (hK : Backed m0 F t c K L) (hL : Ruled m0 F L) : K <+: B' := by
  induction t' using Nat.strong_induction_on generalizing c' B' V' t c K L with
  | _ t' ih =>
    refine (hs.ballot hB').covers hs ?_ ht hK hL
    intro u d B V hB hu hne t c K L htu hK hL
    rcases Nat.lt_or_eq_of_le hu with hlt | rfl
    · exact ih u hlt hB htu hK hL
    · exact absurd ⟨rfl, (hs.electedUnique hB hB').1⟩ hne

/-- Election safety: a candidate with a majority of a term in which somebody has won is the
winner. -/
theorem ballot_unique (hs : Sound m0 F) (hb : Ballot m0 F t c B V) (hB' : .elected t c' B' V' ∈ F) : c = c' := by
  by_contra hne
  have hb' := hs.ballot hB'
  have hcover' : ∀ {u d K L}, u < t → Backed m0 F u d K L → Ruled m0 F L → K <+: B' :=
    fun hu hK hL => hs.complete hB' hu hK hL
  have hcover : ∀ {u d K L}, u < t → Backed m0 F u d K L → Ruled m0 F L → K <+: B :=
    fun hu hK hL => hb.covers hs (fun hB'' _ _ => fun htu hK hL => hs.complete hB'' htu hK hL) hu hK hL
  obtain ⟨D, hD, hD', hmax⟩ := exists_common_prefix B B'
  have hmax' : ∀ P, P <+: B' → P <+: B → P <+: D := fun P h h' => hmax P h' h
  have hboth : ∀ P e Q f, D <+: P → P ++ [e] <+: B → D <+: Q → Q ++ [f] <+: B' → term e = term f → False := by
    intro P e Q f hDP hP hDQ hQ hterm
    rcases hs.comparable_of_term_eq hb.good hb'.good hP hQ hterm with h | h
    · exact not_past_common hmax hDP hP (h.trans hQ)
    · exact not_past_common hmax hDQ (h.trans hP) hQ
  have hadj := adjacent_of_changesOnce hD hD' hb.ordered hb'.ordered
    (hb.changesOnce hcover' hmax) (hb'.changesOnce hcover hmax') hboth
  obtain ⟨v, hv, hv'⟩ := hb.quorum.inter_of_adjacent hb'.quorum hadj
  obtain ⟨L, hL, -⟩ := hb.voters v hv
  obtain ⟨L', hL', -⟩ := hb'.voters v hv'
  exact hne (hs.voteUnique hL hL').1

end Sound

end LogConsensus
