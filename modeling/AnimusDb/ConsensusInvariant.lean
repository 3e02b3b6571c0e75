import AnimusDb.ConsensusSafety

/-! What every run of the protocol keeps. The invariant has one part about the facts and four parts
about each node: its log and commit index, its votes, its role, and what it has acknowledged. A
step of one node adds facts of that node only, so the parts about the others are carried over. -/

open QuorumSets

namespace LogConsensus

open Entry

variable {N E : Type} [DecidableEq N] [Entry N E] {m0 : Finset N} {F G : Set (Fact N E)}

/-- The node that a fact is about. -/
def Fact.author : Fact N E → N
  | .request _ c _ => c
  | .vote _ v _ _ => v
  | .elected _ c _ _ => c
  | .lead _ c _ => c
  | .ack _ v _ _ => v
  | .committed _ c _ _ => c

variable {nd : Node N E} {new : Set (Fact N E)}

theorem Local.author {n : N} {nd' : Node N E} (h : Local m0 F n nd nd' new) : ∀ f ∈ new, f.author = n := by
  cases h <;> simp [Fact.author]

/-- `K` is in the log that every leader of a term in `(u, t]` started with. -/
def Carried (F : Set (Fact N E)) (u t : Nat) (K : List E) : Prop :=
  ∀ t' c' B' V', .elected t' c' B' V' ∈ F → u < t' → t' ≤ t → K <+: B'

omit [Entry N E] [DecidableEq N] in
theorem Carried.weaken {u t t' : Nat} {K : List E} (h : Carried G u t' K) (hFG : F ⊆ G) (ht : t ≤ t') :
    Carried F u t K :=
  fun r c B V hB hu hr => h r c B V (hFG hB) hu (hr.trans ht)

theorem Ballot.grow {t : Nat} {c : N} {B : List E} {V : Finset N} (h : Ballot m0 F t c B V) (hFG : F ⊆ G)
    (hlate : ∀ {u v d A}, .ack u v d A ∈ G → .ack u v d A ∈ F ∨ ∀ {t c L}, .vote t v c L ∈ F → t ≤ u) :
    Ballot m0 G t c B V := by
  refine ⟨h.good.mono hFG, h.ruled.mono hFG, h.ordered, h.below, h.quorum, h.self, ?_⟩
  intro v hv
  obtain ⟨L, hL, hup, hgood, hord, hpromise⟩ := h.voters v hv
  refine ⟨L, hFG hL, hup, hgood.mono hFG, hord, ?_⟩
  intro u d A K hA hu hK hothers
  rcases hlate hA with hA | hle
  · exact hpromise u d A K hA hu hK (fun t' c' B' V' hB' hlt hle hne => hothers t' c' B' V' (hFG hB') hlt hle hne)
  · have := hle hL
    omega

theorem Justified.grow {f : Fact N E} (h : Justified m0 F f) (hFG : F ⊆ G)
    (hlate : ∀ {u v d A}, .ack u v d A ∈ G → .ack u v d A ∈ F ∨ ∀ {t c L}, .vote t v c L ∈ F → t ≤ u) :
    Justified m0 G f := by
  cases f with
  | request t c B => trivial
  | vote t v c L =>
    obtain ⟨⟨B, hB, hup⟩, hgood, hord⟩ := h
    exact ⟨⟨B, hFG hB, hup⟩, hgood.mono hFG, hord⟩
  | elected t c B V => exact Ballot.grow h hFG hlate
  | lead t c L =>
    obtain ⟨⟨B, V, hB, hext⟩, hruled, hack⟩ := h
    exact ⟨⟨B, V, hFG hB, hext⟩, hruled.mono hFG, hFG hack⟩
  | ack t v c A =>
    obtain ⟨L, hL, hA⟩ := h
    exact ⟨L, hFG hL, hA⟩
  | committed t c K L => exact ⟨h.1.mono hFG, hFG h.2⟩

/-- Facts that are justified and do not clash with one another keep the relations. -/
theorem Sound.grow (hs : Sound m0 F) (hlate : ∀ {u v d A}, .ack u v d A ∈ new → ∀ {t c L}, .vote t v c L ∈ F →
    t ≤ u) (hjust : ∀ f ∈ new, Justified m0 (F ∪ new) f)
    (hrequest : ∀ {t c B B'}, .request t c B ∈ new → .request t c B' ∈ F ∪ new → B = B')
    (hvote : ∀ {t v c c' L L'}, .vote t v c L ∈ new → .vote t v c' L' ∈ F ∪ new → c = c' ∧ L = L')
    (helected : ∀ {t c c' B B' V V'}, .elected t c B V ∈ new → .elected t c' B' V' ∈ F ∪ new → c = c' ∧
      B = B' ∧ V = V')
    (hlead : ∀ {t c L L'}, .lead t c L ∈ new → .lead t c L' ∈ F ∪ new → L <+: L' ∨ L' <+: L) :
      Sound m0 (F ∪ new) := by
  have hlate' : ∀ {u v d A}, .ack u v d A ∈ F ∪ new → .ack u v d A ∈ F ∨ ∀ {t c L}, .vote t v c L ∈ F → t ≤ u :=
    fun h => h.imp id (fun h => hlate h)
  refine ⟨?_, ?_, ?_, ?_, ?_⟩
  · intro f hf
    rcases hf with hf | hf
    · exact (hs.justified f hf).grow Set.subset_union_left hlate'
    · exact hjust f hf
  · intro t c B B' h h'
    rcases h with h | h
    · rcases h' with h' | h'
      · exact hs.requestUnique h h'
      · exact (hrequest h' (Or.inl h)).symm
    · exact hrequest h h'
  · intro t v c c' L L' h h'
    rcases h with h | h
    · rcases h' with h' | h'
      · exact hs.voteUnique h h'
      · obtain ⟨rfl, rfl⟩ := hvote h' (Or.inl h)
        exact ⟨rfl, rfl⟩
    · exact hvote h h'
  · intro t c c' B B' V V' h h'
    rcases h with h | h
    · rcases h' with h' | h'
      · exact hs.electedUnique h h'
      · obtain ⟨rfl, rfl, rfl⟩ := helected h' (Or.inl h)
        exact ⟨rfl, rfl, rfl⟩
    · exact helected h h'
  · intro t c L L' h h'
    rcases h with h | h
    · rcases h' with h' | h'
      · exact hs.leadChain h h'
      · exact (hlead h' (Or.inl h)).symm
    · exact hlead h h'

structure LogInv (m0 : Finset N) (F : Set (Fact N E)) (nd : Node N E) : Prop where
  good : Good F nd.log
  ruled : Ruled m0 F nd.log
  ordered : Ordered nd.log
  termLe : ∀ e ∈ nd.log, Entry.term e ≤ nd.term
  commitLe : nd.commit ≤ nd.log.length
  commitKnown : 0 < nd.commit → ∃ t c K L, .committed t c K L ∈ F ∧ t ≤ nd.term ∧ nd.log.take nd.commit <+: K

/-- The votes, requests and elections of a node are of terms up to its own. -/
structure VoteInv (F : Set (Fact N E)) (v : N) (nd : Node N E) : Prop where
  voteTerm : ∀ {t c L}, .vote t v c L ∈ F → t ≤ nd.term
  voteNode : ∀ {c L}, .vote nd.term v c L ∈ F → nd.vote = some c
  voteFact : ∀ {c}, nd.vote = some c → ∃ L, .vote nd.term v c L ∈ F
  requestTerm : ∀ {t B}, .request t v B ∈ F → t ≤ nd.term
  electedTerm : ∀ {t B V}, .elected t v B V ∈ F → t ≤ nd.term

/-- What a candidate and a leader rest on. -/
structure RoleInv (m0 : Finset N) (F : Set (Fact N E)) (v : N) (nd : Node N E) : Prop where
  candidate : ∀ {vs}, nd.role = .candidate vs → .request nd.term v nd.log ∈ F ∧ v ∈ vs ∧
    (∀ w ∈ vs, w ∈ memberSet m0 nd.log ∧ ∃ L, .vote nd.term w v L ∈ F) ∧
    (∀ e ∈ nd.log, Entry.term e < nd.term) ∧ ∀ B V, .elected nd.term v B V ∉ F
  leader : nd.role = .leader → .lead nd.term v nd.log ∈ F ∧ ∀ L, .lead nd.term v L ∈ F → L <+: nd.log

/-- An acknowledged part stays in the log, and is in the log with which the node votes, as long as
every new leader starts with it. -/
structure AckInv (F : Set (Fact N E)) (v : N) (nd : Node N E) : Prop where
  ackTerm : ∀ {t c A}, .ack t v c A ∈ F → t ≤ nd.term
  kept : ∀ {t c A K}, .ack t v c A ∈ F → K <+: A → Carried F t nd.term K → K <+: nd.log
  keptVote : ∀ {u d A t c L K}, .ack u v d A ∈ F → .vote t v c L ∈ F → u < t → K <+: A → Carried F u t K → K <+: L

structure Inv (m0 : Finset N) (s : State N E) : Prop where
  sound : Sound m0 s.facts
  log : ∀ n, LogInv m0 s.facts (s.node n)
  vote : ∀ n, VoteInv s.facts n (s.node n)
  role : ∀ n, RoleInv m0 s.facts n (s.node n)
  ack : ∀ n, AckInv s.facts n (s.node n)

theorem LogInv.mono (h : LogInv m0 F nd) (hFG : F ⊆ G) : LogInv m0 G nd := by
  refine ⟨h.good.mono hFG, h.ruled.mono hFG, h.ordered, h.termLe, h.commitLe, ?_⟩
  intro hpos
  obtain ⟨t, c, K, L, hc, ht, hK⟩ := h.commitKnown hpos
  exact ⟨t, c, K, L, hFG hc, ht, hK⟩

theorem LogInv.raise (h : LogInv m0 F nd) {t : Nat} (ht : nd.term ≤ t) (vote : Option N) (role : Role N) :
    LogInv m0 F { nd with term := t, vote := vote, role := role } := by
  refine { h with termLe := fun e he => (h.termLe e he).trans ht, commitKnown := fun hpos => ?_ }
  obtain ⟨u, c, K, L, hc, hu, hK⟩ := h.commitKnown hpos
  exact ⟨u, c, K, L, hc, hu.trans ht, hK⟩

variable {n : N} {nd' : Node N E}

omit [Entry N E] [DecidableEq N] in
/-- A step that casts no vote and asks for none. -/
theorem VoteInv.carry (h : VoteInv F n nd) (hterm : nd'.term = nd.term) (hFG : F ⊆ G)
    (hvote : nd'.vote = nd.vote) (hvotes : ∀ {t c L}, .vote t n c L ∈ G → .vote t n c L ∈ F)
      (hrequests : ∀ {t B}, .request t n B ∈ G → .request t n B ∈ F)
    (helected : ∀ {t B V}, .elected t n B V ∈ G → .elected t n B V ∈ F ∨ t = nd.term) : VoteInv G n nd' where
  voteTerm hL := hterm ▸ h.voteTerm (hvotes hL)
  voteNode hL := hvote ▸ h.voteNode (hvotes (hterm ▸ hL))
  voteFact hc := by
    rw [hvote] at hc
    rw [hterm]
    exact (h.voteFact hc).imp fun _ hL => hFG hL
  requestTerm hB := hterm ▸ h.requestTerm (hrequests hB)
  electedTerm hB := by
    rw [hterm]
    exact (helected hB).elim h.electedTerm fun ht => ht.le

omit [DecidableEq N] in
/-- A step that leaves role and log alone and announces nothing as a leader. -/
theorem RoleInv.carry (h : RoleInv m0 F n nd) (hterm : nd'.term = nd.term) (hFG : F ⊆ G)
    (hrole : nd'.role = nd.role) (hlog : nd'.log = nd.log) (helected : ∀ {t B V}, .elected t n B V ∈ G →
    .elected t n B V ∈ F) (hleads : ∀ {t L}, .lead t n L ∈ G → .lead t n L ∈ F) : RoleInv m0 G n nd' := by
  refine ⟨?_, ?_⟩ <;> rw [hrole, hterm, hlog]
  · intro vs hvs
    obtain ⟨hreq, hself, hvotes, hlt, hno⟩ := h.candidate hvs
    refine ⟨hFG hreq, hself, fun w hw => ?_, hlt, fun B V hB => hno B V (helected hB)⟩
    obtain ⟨hmem, L, hL⟩ := hvotes w hw
    exact ⟨hmem, L, hFG hL⟩
  · intro hlead
    obtain ⟨hL, hmax⟩ := h.leader hlead
    exact ⟨hFG hL, fun L hL => hmax L (hleads hL)⟩

omit [Entry N E] [DecidableEq N] in
/-- A step that acknowledges parts of the log it leaves, and drops no acknowledged part. -/
theorem AckInv.carry (h : AckInv F n nd) (hterm : nd'.term = nd.term) (hFG : F ⊆ G) (hv : VoteInv F n nd)
    (hacks : ∀ {t c A}, .ack t n c A ∈ G → .ack t n c A ∈ F ∨ (t = nd.term ∧ A <+: nd'.log))
    (hvotes : ∀ {t c L}, .vote t n c L ∈ G → .vote t n c L ∈ F ∨ (t = nd.term ∧ L = nd.log))
    (hkeep : ∀ {t c A K}, .ack t n c A ∈ F → K <+: A → Carried F t nd.term K → K <+: nd'.log) :
      AckInv G n nd' := by
  refine ⟨?_, ?_, ?_⟩
  · intro t c A hA
    rw [hterm]
    exact (hacks hA).elim h.ackTerm fun ht => ht.1.le
  · intro t c A K hA hK hc
    rcases hacks hA with hA | ⟨-, hA⟩
    · exact hkeep hA hK (hc.weaken hFG hterm.ge)
    · exact hK.trans hA
  · intro u d A t c L K hA hL hu hK hc
    rcases hacks hA with hA | ⟨rfl, -⟩
    · rcases hvotes hL with hL | ⟨rfl, rfl⟩
      · exact h.keptVote hA hL hu hK (hc.weaken hFG le_rfl)
      · exact h.kept hA hK (hc.weaken hFG le_rfl)
    · rcases hvotes hL with hL | ⟨rfl, -⟩
      · exact absurd (hv.voteTerm hL) (not_le.mpr hu)
      · exact absurd hu (lt_irrefl _)

section Frame

variable {v : N} (hFG : F ⊆ G)
  (hold : ∀ f ∈ G, f.author = v → f ∈ F)

include hFG hold

omit [Entry N E] [DecidableEq N] in
/-- Facts of other nodes do not touch a node's votes. -/
theorem VoteInv.frame (h : VoteInv F v nd) : VoteInv G v nd :=
  h.carry rfl hFG rfl (fun hv => hold _ hv rfl) (fun hr => hold _ hr rfl) fun he => .inl (hold _ he rfl)

omit [DecidableEq N] in
theorem RoleInv.frame (h : RoleInv m0 F v nd) : RoleInv m0 G v nd :=
  h.carry rfl hFG rfl rfl (fun he => hold _ he rfl) fun hl => hold _ hl rfl

omit [Entry N E] [DecidableEq N] in
theorem AckInv.frame (h : AckInv F v nd) : AckInv G v nd where
  ackTerm ha := h.ackTerm (hold _ ha rfl)
  kept ha hK hc := h.kept (hold _ ha rfl) hK (hc.weaken hFG le_rfl)
  keptVote ha hv hu hK hc :=
    h.keptVote (hold _ ha rfl) (hold _ hv rfl) hu hK (hc.weaken hFG le_rfl)

end Frame

omit [DecidableEq N] in
theorem RoleInv.of_follower {n : N} (h : nd.role = .follower) : RoleInv m0 F n nd := by
  constructor <;> simp [h]

/-- A step keeps the invariant if it keeps the relations between facts and the parts about the
stepping node. -/
theorem Inv.update {s : State N E} (h : Inv m0 s) {n : N} (hauthor : ∀ f ∈ new, f.author = n)
    (hsound : Sound m0 (s.facts ∪ new))
    (hlog : LogInv m0 (s.facts ∪ new) nd) (hvote : VoteInv (s.facts ∪ new) n nd)
    (hrole : RoleInv m0 (s.facts ∪ new) n nd) (hack : AckInv (s.facts ∪ new) n nd) :
      Inv m0 (s.update n nd new) := by
  have hsub : s.facts ⊆ s.facts ∪ new := Set.subset_union_left
  have hold : ∀ v, v ≠ n → ∀ f ∈ s.facts ∪ new, f.author = v → f ∈ s.facts := by
    intro v hv f hf hfv
    rcases hf with hf | hf
    · exact hf
    · exact absurd (hfv.symm.trans (hauthor f hf)) hv
  refine ⟨hsound, fun v => ?_, fun v => ?_, fun v => ?_, fun v => ?_⟩ <;>
    rcases eq_or_ne v n with rfl | hv
  · simpa using hlog
  · simpa [s.update_node_of_ne nd new hv] using (h.log v).mono hsub
  · simpa using hvote
  · simpa [s.update_node_of_ne nd new hv] using (h.vote v).frame hsub (hold v hv)
  · simpa using hrole
  · simpa [s.update_node_of_ne nd new hv] using (h.role v).frame hsub (hold v hv)
  · simpa using hack
  · simpa [s.update_node_of_ne nd new hv] using (h.ack v).frame hsub (hold v hv)

end LogConsensus
