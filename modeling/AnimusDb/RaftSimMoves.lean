import AnimusDb.RaftSim

/-! Every move of a core is followed by local steps of the protocol node that it stands for. The
moves of elections and of a leader's own log come first, then those by which a follower takes over
a leader's log, by entries or by an image. -/

open QuorumSets LogConsensus List

namespace AnimusDb.Raft

variable {N C S : Type} [LinearOrder N] {m0 : Finset N} {n : N}
  {a : State N (LogEntry N C)} {c : Vital N C S}

variable {X : List (LogEntry N C)}

theorem View.batch (h : View m0 X c) {next : Nat} (hnext : c.snapshotIndex < next) :
    (c.log.filter fun e => decide (next ≤ e.index)) = X.drop (next - 1) := by
  rw [h.contiguous.filter_ge (Nat.zero_lt_of_lt hnext), h.log, drop_drop, Nat.add_sub_cancel' (by omega)]

theorem Sim.appendMsg (ha : Reachable m0 a) (h : Sim m0 a.facts n (a.node n) c)
    (hrole : c.role = .leader) {next : Nat} (hnext : c.snapshotIndex < next) (empty : Bool) (dst : N) :
    Justifies m0 a.facts n dst (c.appendMsg next empty) := by
  obtain ⟨hlead, -⟩ := (ha.inv.role n).leader (h.leading hrole)
  unfold Ledger.appendMsg
  rw [h.term, h.id, h.view.batch hnext, h.commit]
  refine ⟨(a.node n).log, hlead, h.view.indexed, ha.inv.known n, ?_⟩
  rcases Nat.lt_or_ge (a.node n).log.length (next - 1) with hout | hin
  · refine .inr ⟨hout, h.view.termAt_beyond hout, ?_⟩
    rw [drop_eq_nil_of_le hout.le]
    cases empty <;> rfl
  · refine .inl ⟨hin, h.view.termAt (by omega) hin, ?_⟩
    cases empty with
    | true => exact nil_prefix
    | false => exact take_prefix _ _

theorem Sim.emits (ha : Reachable m0 a) (h : Sim m0 a.facts n (a.node n) c) {o : Out N C}
    (hemits : c.Emits o) : Justifies m0 a.facts n o.1 o.2 := by
  obtain ⟨dst, msg⟩ := o
  cases msg with
  | requestVote term candidate lastLogIndex lastLogTerm =>
    obtain ⟨hrole, rfl, rfl, rfl, rfl⟩ := hemits
    obtain ⟨hrequest, -⟩ := (ha.inv.role n).candidate (h.standing hrole)
    refine ⟨(a.node n).log, ?_, h.view.lastLogIndex.symm, h.view.lastLogTerm.symm⟩
    rw [h.term, h.id]
    exact hrequest
  | requestVoteResp term granted =>
    intro hgranted
    obtain ⟨hvote, rfl⟩ := hemits hgranted
    rw [h.term]
    exact (ha.inv.vote n).voteFact (h.vote.symm.trans hvote)
  | appendEntries =>
    obtain ⟨hrole, next, empty, hnext, heq⟩ := hemits
    dsimp only at heq ⊢
    rw [heq]
    exact h.appendMsg ha hrole hnext empty dst
  | appendEntriesResp term success =>
    intro hsuccess
    exact absurd (hsuccess.symm.trans hemits) (by simp)
  | installSnapshot =>
    obtain ⟨hrole, hbase, rfl, rfl, rfl, rfl, rfl, -⟩ := hemits
    obtain ⟨hlead, -⟩ := (ha.inv.role n).leader (h.leading hrole)
    have hcommit : c.snapshotIndex ≤ (a.node n).commit :=
      h.commit ▸ h.based.trans h.applied
    obtain ⟨hsome, -⟩ := h.shaped.based hbase
    obtain ⟨voters, hvoters⟩ := Option.isSome_iff_exists.mp hsome
    have hmembers := h.view.baseMembers
    rw [hvoters] at hmembers
    refine ⟨(a.node n).log, ?_, h.view.indexed, ?_, h.view.base, h.view.baseTerm,
      hvoters.trans (congrArg some hmembers)⟩
    · rw [h.term, h.id]
      exact hlead
    · rw [h.term]
      exact (ha.inv.known n).restrict (take_prefix_take_left hcommit)
  | installSnapshotResp => exact .inl hemits
  | _ => trivial

variable {sender : N} {F G : Set (Fact N (LogEntry N C))} {nd : Node N (LogEntry N C)}

/-- A core that stopped leading or standing, for a node with the same log and commit index. -/
theorem Sim.retire {nd' : Node N (LogEntry N C)} {term : Nat} {vote : Option N} {role : Role} {votes : Finset N}
    (h : Sim m0 F n nd c) (hFG : F ⊆ G) (hlog : nd'.log = nd.log) (hcommit : nd'.commit = nd.commit)
      (hterm : term = nd'.term)
    (hvote : vote = nd'.vote) (hrole : role = .follower ∨ role = .preCandidate) :
    Sim m0 G n nd' { c with currentTerm := term, votedFor := vote, role := role, votes := votes } := by
  have hidle : role ≠ .leader ∧ role ≠ .candidate := by
    rcases hrole with rfl | rfl <;> simp
  exact
    { h with
      shaped := { h.shaped with }, view := hlog ▸ { h.view with }, term := hterm, vote := hvote
      leading := fun hl => absurd hl hidle.1
      standing := fun hc => absurd hc hidle.2
      commit := h.commit.trans hcommit.symm
      member := fun hl => absurd hl hidle.1
      first := fun hl => absurd hl hidle.1
      progress := fun hl => absurd hl hidle.1
      incoming := (h.mono hFG).incoming }

section

variable (h : Sim m0 a.facts n (a.node n) c)

include h

theorem Sim.adoptTerm {term : Nat} (hterm : c.currentTerm < term) :
    Tracks m0 n a c { c with currentTerm := term, votedFor := none, role := .follower } [] := by
  have hlt : (a.node n).term < term := h.term ▸ hterm
  refine Tracks.step ⟨hterm.le, le_rfl, le_rfl, le_rfl⟩ (.bump term hlt) ?_ (by simp)
  exact h.retire Set.subset_union_left rfl rfl rfl rfl (.inl rfl)

theorem Sim.demote {role : Role} (votes : Finset N) (hrole : role = .follower ∨ role = .preCandidate) :
    Tracks m0 n a c { c with role := role, votes := votes } [] :=
  .stay ⟨le_rfl, le_rfl, le_rfl, le_rfl⟩ (h.retire subset_rfl rfl rfl h.term h.vote hrole) (by simp)

theorem Sim.campaign (hmember : c.id ∈ c.config) : Tracks m0 n a c
      { c with role := .candidate, currentTerm := c.currentTerm + 1, votedFor := some c.id, votes := {c.id} }
      [] := by
  have hmem : n ∈ memberSet m0 (a.node n).log := by
    rw [← h.view.config h.shaped, ← h.id]
    exact hmember
  refine Tracks.step ⟨Nat.le_succ _, le_rfl, le_rfl, le_rfl⟩ (.campaign hmem) ?_ (by simp)
  exact
    { h with
      shaped := { h.shaped with }, view := { h.view with }, term := congrArg (· + 1) h.term,
      vote := congrArg some h.id
      leading := fun hl => by cases hl
      standing := fun _ => by rw [h.id]
      member := fun hl => by cases hl
      first := fun hl => by cases hl
      progress := fun hl => by cases hl
      incoming := (h.mono Set.subset_union_left).incoming }

/-- The vote that a core gives to an up-to-date candidate. -/
theorem Sim.grant {candidate : N} {lastLogIndex lastLogTerm : Nat} (hmsg : Justifies m0 a.facts sender n
      (.requestVote c.currentTerm candidate lastLogIndex lastLogTerm : RaftMsg N C))
    (hvote : c.votedFor = none ∨ c.votedFor = some candidate) (hlog : c.logOk lastLogIndex lastLogTerm = true) :
    Tracks m0 n a c { c with votedFor := some candidate } [] := by
  rcases hvote with hfree | hsame
  · obtain ⟨B, hB, hlen, hlast⟩ := hmsg
    rw [h.term] at hB
    have hup : UpToDate B (a.node n).log := by
      simp only [Ledger.logOk, Bool.or_eq_true, Bool.and_eq_true, decide_eq_true_eq,
        h.view.lastLogTerm, h.view.lastLogIndex] at hlog
      rw [UpToDate, hlast, hlen]
      exact hlog
    refine Tracks.step ⟨le_rfl, le_rfl, le_rfl, le_rfl⟩ (.grant candidate B hB (h.vote.symm.trans hfree) hup)
      ?_ (by simp)
    have h' := h.mono (G := a.facts ∪ {.vote (a.node n).term n candidate (a.node n).log}) Set.subset_union_left
    exact
      { h with
        shaped := { h.shaped with }, view := { h.view with }, vote := rfl, first := h'.first,
        progress := h'.progress
        incoming := h'.incoming }
  · have heq : ({ c with votedFor := some candidate } : Vital N C S) = c := by
      rw [← hsame]
    rw [heq]
    exact .stay (.refl c) h (by simp)

theorem Sim.collect (hmsg : Justifies m0 a.facts sender n (.requestVoteResp c.currentTerm true : RaftMsg N C))
    (hrole : c.role = .candidate) (hmember : sender ∈ c.config) :
    Tracks m0 n a c { c with votes := insert sender c.votes } [] := by
  obtain ⟨L, hL⟩ := hmsg rfl
  rw [h.term] at hL
  refine Tracks.step ⟨le_rfl, le_rfl, le_rfl, le_rfl⟩
    (.collect sender L c.votes (h.standing hrole) hL (h.view.config h.shaped ▸ hmember)) ?_ (by simp)
  have hidle : c.role ≠ .leader := by rw [hrole]; simp
  exact
    { h with
      shaped := { h.shaped with }, view := { h.view with }
      leading := fun hl => absurd hl hidle
      standing := fun _ => rfl
      member := fun hl => absurd hl hidle
      first := fun hl => absurd hl hidle
      progress := fun hl => absurd hl hidle
      incoming := (h.mono Set.subset_union_left).incoming }

end

variable (h : Sim m0 a.facts n (a.node n) c)

include h

variable {m : BTreeMap N Nat} {k : Nat}

section Leading

/-- No change of the members is above the commit index. -/
theorem Sim.settled (hnone : c.configChangeInFlight = false)
    {P : List (LogEntry N C)} {x : LogEntry N C} (hP : P ++ [x] <+: (a.node n).log)
    (hx : x.config.isSome = true) : P ++ [x] <+: (a.node n).log.take c.commitIndex := by
  have hget : (a.node n).log[P.length]? = some x := by
    obtain ⟨R, hR⟩ := hP
    rw [← hR]
    simp
  have hindex := h.view.indexed.index_eq hget
  have hle : P.length + 1 ≤ c.commitIndex := by
    rcases Nat.lt_or_ge P.length c.snapshotIndex with hbase | hbase
    · have := h.based.trans h.applied
      omega
    · have hmem := h.view.mem_log hget hbase
      simp only [Ledger.configChangeInFlight, any_eq_false] at hnone
      have := hnone x hmem
      simp only [hx, Bool.true_and, decide_eq_true_eq, not_lt] at this
      omega
  rw [prefix_take_iff]
  refine ⟨hP, ?_⟩
  rw [length_append]
  exact hle

/-- New match indices of a leader, all acknowledged. -/
theorem Sim.setMatch (m : BTreeMap N Nat) (hm : c.role = .leader → ∀ p, p ∈ c.peers ∨ p ∈ c.learners →
      Acked a.facts (a.node n).term p n (m[p]?.getD 0)) : Tracks m0 n a c { c with matchIndex := m } [] :=
  .stay ⟨le_rfl, le_rfl, le_rfl, le_rfl⟩ { h with
      shaped := { h.shaped with }, view := { h.view with }
      progress := hm } (by simp)

theorem Sim.forget (hm : ∀ p, m[p]?.getD 0 = c.peerMatch p ∨ m[p]?.getD 0 = 0) :
    Tracks m0 n a c { c with matchIndex := m } [] := by
  refine h.setMatch m fun hrole p hp => ?_
  rcases hm p with hkeep | hzero
  · rw [hkeep]
    exact h.progress hrole p hp
  · exact .inl hzero

theorem Sim.recordMatch {index : Nat} (hacked : Acked a.facts (a.node n).term sender n index) : Tracks m0 n a c
      { c with matchIndex := c.matchIndex.insert sender (max (c.peerMatch sender) index) } [] := by
  refine h.setMatch _ fun hrole p hp => ?_
  rw [Std.TreeMap.getElem?_insert]
  split
  · rename_i heq
    obtain rfl : sender = p := compare_eq_iff_eq.mp heq
    change Acked _ _ _ _ (max (c.peerMatch sender) index)
    rcases max_choice (c.peerMatch sender) index with hmax | hmax <;> rw [hmax]
    · exact h.progress hrole sender hp
    · exact hacked
  · exact h.progress hrole p hp

omit h in
/-- The search of `maybe_advance_commit` ends at the old commit index, or at an entry of this term
that a majority holds. -/
theorem Ledger.advanceFrom_spec (c : Ledger N C) (start : Nat) : c.advanceFrom start = c.commitIndex ∨
      (c.commitIndex < c.advanceFrom start ∧ c.advanceFrom start ≤ start ∧
        c.termAt (c.advanceFrom start) = c.currentTerm ∧
        c.majority ≤ c.replicasAt (c.advanceFrom start)) := by
  induction start with
  | zero => exact .inl rfl
  | succ k ih =>
    rw [Ledger.advanceFrom]
    split
    · exact .inl rfl
    · rename_i hlt
      split
      · rename_i hholds
        exact .inr ⟨by omega, le_rfl, hholds⟩
      · rcases ih with hsame | ⟨hlt, hle, hrest⟩
        · exact .inl hsame
        · exact .inr ⟨hlt, by omega, hrest⟩

variable (ha : Reachable m0 a)

include ha

theorem Sim.commit_le : c.commitIndex ≤ (a.node n).log.length :=
  h.commit ▸ (ha.inv.log n).commitLe

/-- A candidate with a majority of votes takes over and appends its first entry. -/
theorem Sim.lead [StateMachine C S] (hrole : c.role = .candidate) (hmajority : c.majority ≤ c.votes.card)
    (hm : ∀ p, p ∈ c.peers ∨ p ∈ c.learners → m[p]?.getD 0 = 0) (hshaped : Shaped (Vital.pushEntry
      { c with role := .leader, matchIndex := m, firstTermIndex := c.lastLogIndex + 1 }
      (noopEntry S c.currentTerm (c.lastLogIndex + 1)))) :
    Tracks m0 n a c (Vital.pushEntry
        { c with role := .leader, matchIndex := m, firstTermIndex := c.lastLogIndex + 1 }
        (noopEntry S c.currentTerm (c.lastLogIndex + 1))) [] := by
  have hconfig := h.view.config h.shaped
  obtain ⟨-, hself, hvotes, -⟩ := (ha.inv.role n).candidate (h.standing hrole)
  have hmember : n ∈ c.config := hconfig ▸ (hvotes n hself).1
  have hmaj : majority (memberSet m0 (a.node n).log).card ≤ c.votes.card := by
    rw [← hconfig, ← h.shaped.size]
    exact hmajority
  have hview : View m0 ((a.node n).log ++ [noopEntry S c.currentTerm (c.lastLogIndex + 1)]) (Vital.pushEntry
        { c with role := .leader, matchIndex := m, firstTermIndex := c.lastLogIndex + 1 }
        (noopEntry S c.currentTerm (c.lastLogIndex + 1))) := by
    refine View.pushEntry ?_ ?_
    · exact { h.view with }
    · rw [← h.view.lastLogIndex]
      rfl
  have hcommit := h.commit_le ha
  rw [Vital.pushEntry_eq] at hview hshaped ⊢
  refine Tracks.step ⟨le_rfl, le_rfl, le_rfl, le_rfl⟩
    (.lead c.votes (noopEntry S c.currentTerm (c.lastLogIndex + 1)) (h.standing hrole) hmaj h.term rfl) ?_ (by simp)
  exact
    { h with
      shaped := hshaped, view := hview
      leading := fun _ => rfl
      standing := fun hc => by cases hc
      member := fun _ => hmember
      first := fun _ hfirst => by
        change c.lastLogIndex + 1 ≤ c.commitIndex at hfirst
        rw [h.view.lastLogIndex] at hfirst
        omega
      progress := fun _ p hp => .inl (hm p hp)
      incoming := (h.mono Set.subset_union_left).incoming }

section Append

variable {command : C} {config learners : Option (Finset N)} (hrole : c.role = .leader)
  (hm : ∀ p, p ∈ (c.pushEntry (c.ownEntry command config learners)).peers ∨
      p ∈ (c.pushEntry (c.ownEntry command config learners)).learners →
    m[p]?.getD 0 = 0 ∨ m[p]?.getD 0 = c.peerMatch p ∧ (p ∈ c.peers ∨ p ∈ c.learners))
  (hshaped : Shaped { c.pushEntry (c.ownEntry command config learners) with matchIndex := m })

include hrole hm hshaped

/-- The core after its own entry, for the node after it. -/
theorem Sim.extend (hFG : a.facts ⊆ G) (hmember : ∀ voters, config = some voters → n ∈ voters) :
    Sim m0 G n { a.node n with log := (a.node n).log ++ [c.ownEntry command config learners] }
      { c.pushEntry (c.ownEntry command config learners) with matchIndex := m } := by
  have hcommit := h.commit_le ha
  have hview : View m0 ((a.node n).log ++ [c.ownEntry command config learners])
      (c.pushEntry (c.ownEntry command config learners)) := by
    refine h.view.pushEntry ?_
    rw [← h.view.lastLogIndex]
    rfl
  rw [Vital.pushEntry_eq] at hview hshaped hm ⊢
  refine
    { h with
      shaped := hshaped, view := { hview with }
      standing := fun hc => absurd (hrole.symm.trans hc) (by simp)
      member := fun _ => ?_
      first := fun _ hfirst => ?_
      progress := fun _ p hp => ?_
      incoming := (h.mono hFG).incoming }
  · cases hconfig : config with
    | none => exact h.member hrole
    | some voters => exact hmember voters hconfig
  · obtain ⟨K, L, hc, hL, hK⟩ := h.first hrole hfirst
    refine ⟨K, L, hFG hc, hL.trans (prefix_append _ _), ?_⟩
    change ((a.node n).log ++ [_]).take c.commitIndex <+: K
    rw [take_append_of_le_length hcommit]
    exact hK
  · rcases hm p hp with hzero | ⟨hkeep, hold⟩
    · exact .inl hzero
    · have hacked := (h.progress hrole p hold).mono hFG
      rw [← hkeep] at hacked
      exact hacked

/-- A leader appends an entry of its own, which may change the members. -/
theorem Sim.append (hmay : c.MayPropose config learners) :
    Tracks m0 n a c { c.pushEntry (c.ownEntry command config learners) with matchIndex := m } [] := by
  have hgrows : c.Grows { c.pushEntry (c.ownEntry command config learners) with matchIndex := m } := by
    rw [Vital.pushEntry_eq]
    exact ⟨le_rfl, le_rfl, le_rfl, le_rfl⟩
  have hgrow := h.extend ha hrole hm hshaped (Set.subset_union_left (t :=
    {.lead (a.node n).term n ((a.node n).log ++ [c.ownEntry command config learners]),
      .ack (a.node n).term n n ((a.node n).log ++ [c.ownEntry command config learners])}))
  cases config with
  | none =>
    exact Tracks.step hgrows (.propose (c.ownEntry command none learners) (h.leading hrole) h.term
      rfl) (hgrow fun voters hv => by cases hv) (by simp)
  | some voters =>
    cases learners with
    | none => exact hmay.elim
    | some learners =>
      obtain ⟨hfirst, hnone, hadj, hkept⟩ := hmay
      obtain ⟨K, L, hc, hL, hK⟩ := h.first hrole hfirst
      have hself : n ∈ voters := by
        rcases hkept with hid | hsub
        · exact h.id ▸ hid
        · exact hsub (h.member hrole)
      refine Tracks.step hgrows (.reconfigure (c.ownEntry command (some voters) (some learners)) voters K L
          (h.leading hrole) h.term rfl hc hL (fun P x hP hx => (h.settled hnone hP hx).trans hK)
          hself ?_) (hgrow fun voters' hv => ?_) (by simp)
      · rw [Adjacent, ← h.view.config h.shaped]
        exact hadj
      · cases hv
        exact hself

end Append

/-- The replicas that `maybe_advance_commit` counts are a majority of acknowledging members. -/
theorem Sim.quorum (hrole : c.role = .leader) (hpos : 0 < k) (hk : k ≤ (a.node n).log.length)
    (hmajority : c.majority ≤ c.replicasAt k) : ∃ Q, IsMajority (memberSet m0 (a.node n).log) Q ∧
      ∀ v ∈ Q, ∃ A, .ack (a.node n).term v n A ∈ a.facts ∧ k ≤ A.length := by
  obtain ⟨hlead, -⟩ := (ha.inv.role n).leader (h.leading hrole)
  have hconfig := h.view.config h.shaped
  have hnodup := h.shaped.peersNodup.filter (fun p => decide (k ≤ c.peerMatch p))
  have hself : n ∉ (c.peers.filter fun p => decide (k ≤ c.peerMatch p)).toFinset := by
    intro hmem
    have hp := (h.shaped.peers n).mp (mem_filter.mp (mem_toFinset.mp hmem)).1
    exact hp.2 h.id.symm
  refine ⟨insert n (c.peers.filter fun p => decide (k ≤ c.peerMatch p)).toFinset, ⟨?_, ?_⟩, ?_⟩
  · rw [← hconfig]
    intro v hv
    rcases Finset.mem_insert.mp hv with rfl | hv
    · exact h.member hrole
    · exact ((h.shaped.peers v).mp (mem_filter.mp (mem_toFinset.mp hv)).1).1
  · rw [Finset.card_insert_of_notMem hself, toFinset_card_of_nodup hnodup, ← hconfig, ← h.shaped.size, Nat.add_comm]
    exact hmajority
  · intro v hv
    rcases Finset.mem_insert.mp hv with rfl | hv
    · exact ⟨_, ha.inv.sound.ackSelf hlead, hk⟩
    · obtain ⟨hpeer, hmatch⟩ := mem_filter.mp (mem_toFinset.mp hv)
      have hmatch := of_decide_eq_true hmatch
      rcases h.progress hrole v (.inl hpeer) with hzero | ⟨A, hA, hle⟩
      · omega
      · exact ⟨A, hA, hmatch.trans hle⟩

theorem Sim.advance (hrole : c.role = .leader) : Tracks m0 n a c c.maybeAdvanceCommit [] := by
  unfold Vital.maybeAdvanceCommit
  rcases c.toLedger.advanceFrom_spec c.lastLogIndex with hsame | ⟨hnew, hle, hterm, hmajority⟩
  · rw [hsame]
    exact .stay (.refl c) h (by simp)
  generalize c.advanceFrom c.lastLogIndex = k at hnew hle hterm hmajority ⊢
  rw [h.view.lastLogIndex] at hle
  have hbase := h.based.trans h.applied
  rw [h.view.termAt (by omega) hle, h.term] at hterm
  obtain ⟨Q, hQ, hack⟩ := h.quorum ha hrole (by omega) hle hmajority
  refine Tracks.step ⟨le_rfl, hnew.le, le_rfl, le_rfl⟩
    (.commit k Q (h.leading hrole) (h.commit ▸ hnew) hle hterm hQ hack) ?_ (by simp)
  have h' := h.mono (G := a.facts ∪ {.committed (a.node n).term n ((a.node n).log.take k) (a.node n).log})
    Set.subset_union_left
  exact
    { h with
      shaped := { h.shaped with }, view := { h.view with }, commit := rfl, applied := h.applied.trans hnew.le
      first := fun _ _ => ⟨_, _, .inr rfl, prefix_rfl, prefix_rfl⟩
      progress := h'.progress, incoming := h'.incoming }

/-- A core applies part of what it knows to be committed. -/
theorem Sim.apply [StateMachine C S] : Tracks m0 n a c c.apply [] := by
  have hfrontier : c.applyFrontier ≤ c.commitIndex := by
    unfold Ledger.applyFrontier
    split
    · exact Nat.min_le_left _ _
    · exact le_rfl
  have hcommit := h.commit_le ha
  obtain ⟨happlied, hsane, -⟩ := h.view.apply h.based (hfrontier.trans hcommit)
  obtain ⟨lastApplied, pendingApply, metadata, applied, panicked, heq⟩ := c.apply_eq
  rw [heq] at happlied hsane ⊢
  change lastApplied = _ at happlied
  change panicked = c.panicked at hsane
  have hbound := h.applied
  have hbase := h.based
  refine .stay ⟨le_rfl, le_rfl, by change c.lastApplied ≤ lastApplied; omega, le_rfl⟩ ?_ (by simp)
  exact
    { h with
      shaped := { h.shaped with }, view := { h.view with }
      based := by change c.snapshotIndex ≤ lastApplied; omega
      applied := by change lastApplied ≤ c.commitIndex; omega
      sane := hsane.trans h.sane }

end Leading

variable {entries L : List (LogEntry N C)} {leader : N} {leaderCommit prevTerm prev : Nat}

section Following

omit h in
/-- The local step by which a part of a leader's log is taken over. -/
theorem Merged.run (m0 : Finset N) {X' : List (LogEntry N C)} (h : Merged (a.node n).log L k X')
    (hlead : .lead (a.node n).term leader L ∈ a.facts) :
    ∃ b, LocalRun m0 n a b ∧ b.node n = { a.node n with role := .follower, log := X' } ∧
      .ack (a.node n).term n leader (L.take k) ∈ b.facts := by
  have hstep : Local m0 a.facts n (a.node n) { a.node n with role := .follower, log := X' }
      {.ack (a.node n).term n leader (L.take k)} := by
    rcases h with ⟨hheld, rfl⟩ | ⟨hnew, rfl⟩
    · exact .acceptHeld leader L _ hlead (List.take_prefix _ _) hheld
    · exact .acceptNew leader L _ hlead (List.take_prefix _ _) hnew
  exact ⟨_, .single hstep, State.update_node_self _ _ _ _, .inr rfl⟩

/-- A core that is no leader learns that its log is committed up to `k`. -/
theorem Sim.learn (hrole : c.role ≠ .leader) (hnew : c.commitIndex < k) (hk : k ≤ (a.node n).log.length)
    (hknown : Known a.facts c.currentTerm ((a.node n).log.take k)) :
    Tracks m0 n a c { c with commitIndex := k } [] := by
  rw [h.term] at hknown
  obtain ⟨a', hrun, hnode⟩ := hknown.learn m0 (h.commit ▸ hnew.le) hk
  refine ⟨⟨le_rfl, hnew.le, le_rfl, le_rfl⟩, a', hrun, ?_, by simp⟩
  rw [hnode]
  exact
    { h with
      shaped := { h.shaped with }, view := { h.view with }, commit := rfl, applied := h.applied.trans hnew.le
      first := fun hl => absurd hl hrole
      progress := fun hl => absurd hl hrole
      incoming := (h.mono hrun.facts_subset).incoming }

variable (ha : Reachable m0 a)

include ha

omit h in
theorem lastTerm_take_pos (hX : Good a.facts X) (hpos : 0 < k) (hk : k ≤ X.length) :
    0 < lastTerm (X.take k) := by
  obtain ⟨j, rfl⟩ : ∃ j, k = j + 1 := ⟨k - 1, by omega⟩
  have hget := getElem?_eq_getElem (l := X) (i := j) hk
  rw [take_succ_of_getElem? hget, lastTerm_snoc]
  exact ha.term_pos hX _ (mem_of_getElem? hget)

/-- A follower raises its commit index to what it learns to be committed, and applies it. -/
theorem Sim.followCommit [StateMachine C S] (hrole : c.role ≠ .leader) {idx : Nat}
    (hknown : Known a.facts c.currentTerm (L.take leaderCommit)) (hheld : L.take idx <+: (a.node n).log)
    (hidx : idx ≤ L.length) : Tracks m0 n a c (c.followCommit leaderCommit idx) [] := by
  unfold Vital.followCommit
  split
  · rename_i hcommit
    have hle : min leaderCommit idx ≤ idx := Nat.min_le_right _ _
    have hreach := hheld.length_le
    rw [length_take_of_le hidx] at hreach
    have hknown' : Known a.facts c.currentTerm ((a.node n).log.take (min leaderCommit idx)) := by
      rw [take_eq_of_prefix_take hheld hidx hle]
      exact hknown.restrict (take_prefix_take_left (Nat.min_le_left _ _))
    obtain ⟨hgrows, a', hrun, hsim, hsent⟩ := h.learn hrole hcommit.2 (hle.trans hreach) hknown'
    exact Tracks.after hrun hgrows hsent (hsim.apply (hrun.reachable ha))
  · exact .stay (.refl c) h (by simp)

/-- A batch that matches at the previous index is merged into the log: the part of the leader's log
up to its end. -/
theorem Sim.merge (hF : F ⊆ a.facts)
    (hmsg : Justifies m0 F sender n (.appendEntries c.currentTerm leader prev prevTerm entries leaderCommit))
    (hbase : c.snapshotIndex ≤ prev) (hmatch : prev = 0 ∨ prev ≤ c.lastLogIndex ∧ c.termAt prev = prevTerm) :
    (entries.foldl Vital.appendStep (c, prev)).1.panicked = c.panicked ∧
      ∃ L X', .lead (a.node n).term leader L ∈ a.facts ∧ Known F c.currentTerm (L.take leaderCommit) ∧
        (entries.foldl Vital.appendStep (c, prev)).2 ≤ L.length ∧
        Merged (a.node n).log L (entries.foldl Vital.appendStep (c, prev)).2 X' ∧
        View m0 X' (entries.foldl Vital.appendStep (c, prev)).1 := by
  have hgood := (ha.inv.log n).good
  obtain ⟨L, hlead, hindexed, hknown, hbatch⟩ := hmsg
  have hgoodL := ha.inv.sound.lead_good (hF hlead)
  rw [h.view.lastLogIndex] at hmatch
  rcases hbatch with ⟨hprev, hterm, hentries⟩ | ⟨hout, hzero, -⟩
  · have hcommon : L.take prev <+: (a.node n).log := by
      rcases hmatch with rfl | ⟨hin, hsame⟩
      · exact nil_prefix
      · rw [h.view.termAt hbase hin, hterm] at hsame
        rw [← ha.inv.sound.take_eq_of_lastTerm_eq hgood hgoodL hin hprev hsame]
        exact take_prefix _ _
    obtain ⟨hnext, hsane, X', hmerged, hview⟩ :=
      h.view.foldl_appendStep ha.inv.sound hgood hgoodL hindexed hbase hcommon hentries
    have hlen := hentries.length_le
    rw [length_drop] at hlen
    rw [hnext]
    exact ⟨hsane, L, X', h.term ▸ hF hlead, hknown, by omega, hmerged, hview⟩
  · -- entries have positive terms, so a previous term of zero matches nothing
    rcases hmatch with rfl | ⟨hin, hsame⟩
    · omega
    · rw [h.view.termAt hbase hin, hzero] at hsame
      have := lastTerm_take_pos ha hgood (by omega) hin
      omega

variable {needs check : Bool} {applied : Nat}
  (hmsg : Justifies m0 a.facts sender n (.appendEntries c.currentTerm leader prev prevTerm entries leaderCommit))

include hmsg

omit ha in
/-- A follower whose base is above the previous index acknowledges its base. -/
theorem Sim.ackBase : Tracks m0 n a c c
      [(leader, .appendEntriesResp c.currentTerm true c.snapshotIndex needs check applied)] := by
  obtain ⟨L, hlead, -⟩ := hmsg
  rw [h.term] at hlead
  have hbase : c.snapshotIndex ≤ (a.node n).commit := h.commit ▸ h.based.trans h.applied
  refine Tracks.step (.refl c) (.ackCommitted leader L c.snapshotIndex hlead hbase)
    (h.mono Set.subset_union_left) ?_
  intro o ho
  rw [mem_singleton.mp ho]
  refine fun _ => .inr ⟨(a.node n).log.take c.snapshotIndex, ?_, ?_⟩
  · rw [h.term]
    exact .inr rfl
  · rw [length_take_of_le h.view.base]

/-- A follower that matches the leader's log at the previous index takes over the batch. -/
theorem Sim.accept [StateMachine C S] {index : Nat} (hrole : c.role = .follower)
    (hbase : c.snapshotIndex ≤ prev) (hmatch : prev = 0 ∨ prev ≤ c.lastLogIndex ∧ c.termAt prev = prevTerm)
    (hindex : index ≤ (entries.foldl Vital.appendStep (c, prev)).2)
    (hshaped : Shaped (entries.foldl Vital.appendStep (c, prev)).1) : Tracks m0 n a c
      (Vital.followCommit (entries.foldl Vital.appendStep (c, prev)).1 leaderCommit
      (entries.foldl Vital.appendStep (c, prev)).2)
      [(leader, .appendEntriesResp c.currentTerm true index needs check applied)] := by
  have hidle : c.role ≠ .leader ∧ c.role ≠ .candidate := by rw [hrole]; simp
  obtain ⟨hsane, L, X', hlead, hknown, hlen, hmerged, hview⟩ :=
    h.merge ha subset_rfl hmsg hbase hmatch
  obtain ⟨_, _, _, _, _, _, _, _, heq⟩ := Vital.foldl_appendStep_eq entries c prev
  generalize entries.foldl Vital.appendStep (c, prev) = r at *
  obtain ⟨d, k⟩ := r
  dsimp only at *
  obtain ⟨b, hrun, hnode, hack⟩ := hmerged.run m0 hlead
  have hsim : Sim m0 b.facts n (b.node n) d := by
    subst heq
    rw [hnode]
    exact
      { h with
        shaped := hshaped, view := hview
        leading := fun hl => absurd hl hidle.1
        standing := fun hc => absurd hc hidle.2
        sane := hsane.trans h.sane
        member := fun hl => absurd hl hidle.1
        first := fun hl => absurd hl hidle.1
        progress := fun hl => absurd hl hidle.1
        incoming := (h.mono hrun.facts_subset).incoming }
  have hgrows : c.Grows d := heq ▸ ⟨le_rfl, le_rfl, le_rfl, le_rfl⟩
  subst heq
  refine Tracks.after hrun hgrows ?_ (hsim.followCommit (hrun.reachable ha) hidle.1
    (hknown.weaken hrun.facts_subset le_rfl) (by rw [hnode]; exact hmerged.prefix_merged) hlen)
  intro o ho
  rw [mem_singleton.mp ho]
  refine fun _ => .inr ⟨L.take k, ?_, ?_⟩
  · rw [h.term]
    exact hack
  · rw [length_take_of_le hlen]
    exact hindex

end Following

variable {lastIndex : Nat} {inc : IncomingSnapshot}

section Images

/-- The images in reassembly stand for committed parts of leaders' logs. -/
theorem Sim.setIncoming (incoming : Option IncomingSnapshot)
    (hincoming : ∀ inc, incoming = some inc → 0 < inc.lastIndex ∧
      ∃ P u, Committed m0 a.facts u P ∧ P.length = inc.lastIndex ∧ lastTerm P = inc.lastTerm) :
    Tracks m0 n a c { c with incomingSnapshot := incoming } [] :=
  .stay ⟨le_rfl, le_rfl, le_rfl, le_rfl⟩ { h with
      shaped := { h.shaped with incoming := fun inc hinc => (hincoming inc hinc).1 }
      view := { h.view with }
      incoming := fun inc hinc => (hincoming inc hinc).2 } (by simp)

theorem Sim.dropImage : Tracks m0 n a c { c with incomingSnapshot := none } [] :=
  h.setIncoming none fun inc hinc => by cases hinc

/-- The install of an image keeps what the log holds: the image is the one that the completing
message names, and it is not a proper part of the log. -/
def Vital.KeepsLog (c : Vital N C S) (inc : IncomingSnapshot) (lastIndex : Nat) : Prop :=
  inc.lastIndex = lastIndex ∧ ¬ (c.termAt inc.lastIndex = inc.lastTerm ∧ inc.lastIndex < c.lastLogIndex)

omit h in
theorem Vital.install_eq (c : Vital N C S) (inc : IncomingSnapshot) (config learners : Option (Finset N)) :
    ∃ peers size voters others pending owed, c.install inc config learners =
      { c with
        peers := peers, clusterSize := size, config := voters, learners := others,
        snapshotIndex := inc.lastIndex
        snapshotTerm := inc.lastTerm, lastApplied := inc.lastIndex, commitIndex := inc.lastIndex, log := [],
          applied := []
        snapshotDirty := true, snapshotConfig := config, snapshotLearners := learners, pending := pending
        installRewriteOwed := owed } := by
  unfold Vital.install Vital.recomputeConfig Vital.applyConfig
  dsimp only
  split
  · exact ⟨_, _, _, _, _, _, rfl⟩
  · exact ⟨_, _, _, _, _, _, rfl⟩

variable (ha : Reachable m0 a)

include ha

/-- An image that keeps the log covers the commit index, and the log that it stands for is what
merging its part of the leader's log gives. -/
theorem Sim.image {u : Nat} (hlast : c.lastApplied ≤ lastIndex)
    (hinc : c.incomingSnapshot = some inc) (hkeeps : c.KeepsLog inc lastIndex)
    (hcommitted : Committed m0 a.facts u (L.take lastIndex)) (hlen : lastIndex ≤ L.length) :
    inc.lastTerm = lastTerm (L.take lastIndex) ∧ c.commitIndex ≤ lastIndex ∧
      Merged (a.node n).log L lastIndex (L.take lastIndex) := by
  obtain ⟨hindex, hpart⟩ := hkeeps
  rw [hindex] at hpart
  obtain ⟨P, v, hP, hPlen, hPterm⟩ := h.incoming inc hinc
  have hPlen' : P.length = (L.take lastIndex).length := by
    rw [hPlen, hindex, length_take_of_le hlen]
  have hPeq : P = L.take lastIndex := by
    rcases ha.inv.sound.committed_comparable hP hcommitted with hle | hle
    · exact hle.eq_of_length hPlen'
    · exact (hle.eq_of_length hPlen'.symm).symm
  have hterm : inc.lastTerm = lastTerm (L.take lastIndex) := hPeq ▸ hPterm.symm
  -- a longer log that starts with the image would lose its rest
  have hwhole (hpre : L.take lastIndex <+: (a.node n).log) : (a.node n).log.length ≤ lastIndex := by
    by_contra hlong
    refine hpart ⟨?_, by rw [h.view.lastLogIndex]; omega⟩
    rw [h.view.termAt (h.based.trans hlast) (by omega), hterm, take_eq_of_prefix_take hpre hlen le_rfl]
  refine ⟨hterm, ?_, ?_⟩
  · by_contra hlt
    have hcommit := h.commit_le ha
    have hknown := (ha.inv.known n).committed ha.inv.sound
    rw [← h.commit] at hknown
    have hpre : L.take lastIndex <+: (a.node n).log.take c.commitIndex := by
      rcases ha.inv.sound.committed_comparable hcommitted hknown with hle | hle
      · exact hle
      · have := hle.length_le
        rw [length_take_of_le hcommit, length_take_of_le hlen] at this
        omega
    have := hwhole (hpre.trans (List.take_prefix _ _))
    omega
  · by_cases hpre : L.take lastIndex <+: (a.node n).log
    · refine .inl ⟨hpre, hpre.eq_of_length (Nat.le_antisymm hpre.length_le ?_)⟩
      rw [length_take_of_le hlen]
      exact hwhole hpre
    · exact .inr ⟨hpre, rfl⟩

theorem Sim.compact [StateMachine C S] {newIndex : Nat} (hbase : c.snapshotIndex < newIndex)
    (hindex : newIndex ≤ c.lastApplied) : Tracks m0 n a c (c.compactTo newIndex) [] := by
  have hcommit := h.commit_le ha
  have happlied := h.applied
  refine .stay ⟨le_rfl, le_rfl, le_rfl, hbase.le⟩ ?_ (by simp)
  exact
    { h with
      shaped := h.shaped.compactTo hbase
      view := h.view.compactTo hbase (by omega)
      based := hindex }

variable {lastTerm offset total : Nat} {data : Bytes} {done : Bool} {config learners : Option (Finset N)}
  (hmsg : Justifies m0 a.facts sender n
    (.installSnapshot c.currentTerm leader lastIndex lastTerm offset data total done config learners : RaftMsg N C))

include hmsg

theorem Sim.chunk (hpos : 0 < lastIndex) : Tracks m0 n a c { c with
        incomingSnapshot := reassemble c.incomingSnapshot lastIndex lastTerm offset data total } [] := by
  obtain ⟨L, -, -, hknown, hlen, hterm, -⟩ := hmsg
  refine h.setIncoming _ fun inc hinc => ?_
  rcases reassemble_lastIndex hinc with ⟨hindex, hlast⟩ | ⟨old, hold, hindex, hlast⟩
  · refine ⟨hindex ▸ hpos, L.take lastIndex, c.currentTerm, hknown.committed ha.inv.sound, ?_, ?_⟩
    · rw [length_take_of_le hlen, hindex]
    · rw [hlast, hterm]
  · obtain ⟨P, u, hP, hPlen, hPterm⟩ := h.incoming old hold
    exact ⟨hindex ▸ h.shaped.incoming old hold, P, u, hP, hPlen.trans hindex.symm, hPterm.trans hlast.symm⟩

/-- A follower installs an image that keeps its log. -/
theorem Sim.install {metadata : S} (hrole : c.role = .follower) (hinc : c.incomingSnapshot = some inc)
    (hlast : c.lastApplied ≤ lastIndex) (hkeeps : c.KeepsLog inc lastIndex) (hshaped : Shaped
      (Vital.install { c with incomingSnapshot := none, metadata := metadata } inc config learners)) :
    Tracks m0 n a c (Vital.install { c with incomingSnapshot := none, metadata := metadata } inc config
      learners) [(leader, .installSnapshotResp c.currentTerm inc.lastIndex inc.total)] := by
  obtain ⟨L, hlead, hindexed, hknown, hlen, -, hconfig⟩ := hmsg
  obtain ⟨hterm, hcommit, hmerged⟩ :=
    h.image ha hlast hinc hkeeps (hknown.committed ha.inv.sound) hlen
  have hindex := hkeeps.1
  have hidle : c.role ≠ .leader ∧ c.role ≠ .candidate := by rw [hrole]; simp
  obtain ⟨_, _, _, _, _, _, heq⟩ := Vital.install_eq { c with incomingSnapshot := none, metadata := metadata }
    inc config learners
  rw [heq] at hshaped ⊢
  rw [h.term] at hlead hknown
  have hPlen : (L.take lastIndex).length = lastIndex := length_take_of_le hlen
  have hPtake : (L.take lastIndex).take lastIndex = L.take lastIndex := by simp
  -- the node takes over the image's part of the leader's log, and then knows that it is committed
  obtain ⟨b, hrun, hnode, hack⟩ := hmerged.run m0 hlead
  obtain ⟨a', hrun', hnode'⟩ := Known.learn m0 (n := n) (s := b) (k := lastIndex)
    (by rw [hnode, ← h.commit]; exact hcommit) (by rw [hnode, hPlen])
    (by rw [hnode, hPtake]; exact hknown.weaken hrun.facts_subset le_rfl)
  refine ⟨⟨le_rfl, ?_, ?_, ?_⟩, a', hrun.trans hrun', ?_, ?_⟩
  · change c.commitIndex ≤ inc.lastIndex
    omega
  · change c.lastApplied ≤ inc.lastIndex
    omega
  · change c.snapshotIndex ≤ inc.lastIndex
    have := h.based
    omega
  · rw [hnode', hnode]
    refine
      { h with
        shaped := hshaped, view := ⟨hindexed.take _, ?_, ?_, ?_, ?_⟩
        leading := fun hl => absurd hl hidle.1
        standing := fun hc => absurd hc hidle.2
        commit := hindex, based := le_rfl, applied := le_rfl
        member := fun hl => absurd hl hidle.1
        first := fun hl => absurd hl hidle.1
        progress := fun hl => absurd hl hidle.1
        incoming := fun inc hinc => by cases hinc }
    · change inc.lastIndex ≤ (L.take lastIndex).length
      rw [hPlen, hindex]
    · change [] = (L.take lastIndex).drop inc.lastIndex
      rw [drop_eq_nil_of_le (by rw [hPlen, hindex])]
    · change inc.lastTerm = LogConsensus.lastTerm ((L.take lastIndex).take inc.lastIndex)
      rw [hindex, hPtake, hterm]
    · change config.getD c.initialConfig = memberSet m0 ((L.take lastIndex).take inc.lastIndex)
      rw [hindex, hPtake, hconfig]
      rfl
  · intro o ho
    rw [mem_singleton.mp ho]
    refine .inr ⟨L.take lastIndex, ?_, ?_⟩
    · rw [h.term]
      exact hrun'.facts_subset hack
    · rw [hPlen, hindex]

end Images

/-- Every move of a core whose installs keep the log is followed by the protocol. -/
theorem Sim.move [StateMachine C S] {In : N → RaftMsg N C → Prop} {G : SnapshotRules N C S} {d : Vital N C S}
    {sent : List (Out N C)} (hrules : ∀ c inc lastIndex, G.install c inc lastIndex → c.KeepsLog inc lastIndex)
    (hin : ∀ s m, In s m → m.Shaped ∧ Justifies m0 a.facts s n m) (ha : Reachable m0 a)
    (hmove : Move In G c d sent) : Tracks m0 n a c d sent := by
  have hshaped : Shaped d := (h.shaped.move (fun s m hm => (hin s m hm).1) hmove).1
  cases hmove with
  | emit o hemits =>
    refine .stay (.refl c) h fun x hx => ?_
    rw [mem_singleton.mp hx]
    exact h.emits ha hemits
  | forget m hm => exact h.forget hm
  | adoptTerm term hterm => exact h.adoptTerm hterm
  | demote role votes hrole => exact h.demote votes hrole
  | campaign hmember => exact h.campaign hmember
  | grant sender candidate lastLogIndex lastLogTerm hmsg hvote hlog =>
    exact h.grant (hin _ _ hmsg).2 hvote hlog
  | collect sender hmsg hrole hmember => exact h.collect (hin _ _ hmsg).2 hrole hmember
  | lead m hrole hmajority hm => exact h.lead ha hrole hmajority hm hshaped
  | append m command config learners hrole hmay hm => exact h.append ha hrole hm hshaped hmay
  | recordMatch sender index hmsg hrole =>
    refine h.recordMatch ?_
    rw [← h.term]
    rcases hmsg with ⟨_, _, _, hmsg⟩ | ⟨_, hmsg⟩
    · exact (hin _ _ hmsg).2 rfl
    · exact (hin _ _ hmsg).2
  | advance hrole => exact h.advance ha hrole
  | apply hrole => exact h.apply ha
  | accept sender leader prev prevTerm entries leaderCommit index _ _ _ hmsg hrole hbase hmatch hindex =>
    refine h.accept ha (hin _ _ hmsg).2 hrole hbase hmatch hindex ?_
    obtain ⟨hcontiguous, hpaired⟩ := (hin _ _ hmsg).1
    refine (h.shaped.foldl_appendStep ?_ hcontiguous hpaired).1
    rcases hmatch with rfl | ⟨hle, _⟩
    · exact Nat.zero_le _
    · exact hle
  | ackBase sender leader prev prevTerm entries leaderCommit _ _ _ hmsg => exact h.ackBase (hin _ _ hmsg).2
  | chunk sender leader lastIndex _ _ _ _ _ _ _ hmsg => exact h.chunk ha (hin _ _ hmsg).2 (hin _ _ hmsg).1.1
  | dropImage => exact h.dropImage
  | install sender leader inc lastIndex _ _ _ _ _ _ _ _ hmsg hrole hinc hlast hmeets =>
    exact h.install ha (hin _ _ hmsg).2 hrole hinc hlast (hrules _ _ _ hmeets) hshaped
  | compact newIndex hbase hindex => exact h.compact ha hbase hindex

end AnimusDb.Raft
