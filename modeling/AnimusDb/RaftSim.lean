import AnimusDb.RaftView

/-! The simulation of a core by a node of the replicated-log protocol. A core's vital part stands
for a protocol node whose log is the whole log behind the core; every message says what some fact
of the protocol says. -/

open QuorumSets LogConsensus

namespace AnimusDb.Raft

variable {N C S : Type} [LinearOrder N]

/-- The facts that a message from `src` to `dst` states. A batch whose previous index lies beyond
the leader's log has previous term zero and no entries. -/
def Justifies (m0 : Finset N) (F : Set (Fact N (LogEntry N C))) (src dst : N) : RaftMsg N C → Prop
  | .requestVote term candidate lastLogIndex lastLogTerm =>
    ∃ B, .request term candidate B ∈ F ∧ B.length = lastLogIndex ∧ lastTerm B = lastLogTerm
  | .requestVoteResp term granted => granted = true → ∃ L, .vote term src dst L ∈ F
  | .appendEntries term leader prevLogIndex prevLogTerm entries leaderCommit =>
    ∃ L, .lead term leader L ∈ F ∧ Contiguous 0 L ∧ Known F term (L.take leaderCommit) ∧
      ((prevLogIndex ≤ L.length ∧ prevLogTerm = lastTerm (L.take prevLogIndex) ∧
        entries <+: L.drop prevLogIndex) ∨ (L.length < prevLogIndex ∧ prevLogTerm = 0 ∧ entries = []))
  | .appendEntriesResp term success index _ _ _ =>
    success = true → index = 0 ∨ ∃ A, .ack term src dst A ∈ F ∧ index ≤ A.length
  | .installSnapshot term leader lastIndex lastTerm _ _ _ _ config _ =>
    ∃ L, .lead term leader L ∈ F ∧ Contiguous 0 L ∧ Known F term (L.take lastIndex) ∧
      lastIndex ≤ L.length ∧ lastTerm = LogConsensus.lastTerm (L.take lastIndex) ∧
      config = some (memberSet m0 (L.take lastIndex))
  | .installSnapshotResp term lastIndex _ =>
    lastIndex = 0 ∨ ∃ A, .ack term src dst A ∈ F ∧ lastIndex ≤ A.length
  | _ => True

/-- The match index `index` of a peer is nothing, or acknowledged by it to the leader `n`. -/
def Acked (F : Set (Fact N (LogEntry N C))) (term : Nat) (peer n : N) (index : Nat) : Prop :=
  index = 0 ∨ ∃ A, .ack term peer n A ∈ F ∧ index ≤ A.length

omit [LinearOrder N] in
theorem Acked.mono {F G : Set (Fact N (LogEntry N C))} {term : Nat} {peer n : N} {index : Nat}
    (hFG : F ⊆ G) (h : Acked F term peer n index) : Acked G term peer n index := by
  rcases h with hzero | ⟨A, hA, hle⟩
  · exact .inl hzero
  · exact .inr ⟨A, hFG hA, hle⟩

omit [LinearOrder N] in
theorem Justifies.mono {m0 : Finset N} {F G : Set (Fact N (LogEntry N C))} {src dst : N}
    {msg : RaftMsg N C} (hFG : F ⊆ G) (h : Justifies m0 F src dst msg) : Justifies m0 G src dst msg := by
  cases msg with
  | requestVote =>
    obtain ⟨B, hB, hrest⟩ := h
    exact ⟨B, hFG hB, hrest⟩
  | requestVoteResp =>
    intro hgranted
    obtain ⟨L, hL⟩ := h hgranted
    exact ⟨L, hFG hL⟩
  | appendEntries | installSnapshot =>
    obtain ⟨L, hL, hindexed, hknown, hrest⟩ := h
    exact ⟨L, hFG hL, hindexed, hknown.weaken hFG le_rfl, hrest⟩
  | appendEntriesResp => exact fun hsuccess => Acked.mono hFG (h hsuccess)
  | installSnapshotResp => exact Acked.mono hFG h
  | _ => trivial

/-- The core `c` of replica `n` stands for the protocol node `nd`, given the facts `F`. -/
structure Sim (m0 : Finset N) (F : Set (Fact N (LogEntry N C))) (n : N)
    (nd : Node N (LogEntry N C)) (c : Vital N C S) : Prop where
  shaped : Shaped c
  view : View m0 nd.log c
  id : c.id = n
  term : c.currentTerm = nd.term
  vote : c.votedFor = nd.vote
  leading : c.role = .leader → nd.role = .leader
  standing : c.role = .candidate → nd.role = .candidate c.votes
  commit : c.commitIndex = nd.commit
  based : c.snapshotIndex ≤ c.lastApplied
  applied : c.lastApplied ≤ c.commitIndex
  sane : c.panicked = false
  member : c.role = .leader → n ∈ c.config
  first : c.role = .leader → c.firstTermIndex ≤ c.commitIndex →
    ∃ K L, .committed nd.term n K L ∈ F ∧ L <+: nd.log ∧ nd.log.take c.commitIndex <+: K
  progress : c.role = .leader → ∀ p, p ∈ c.peers ∨ p ∈ c.learners → Acked F nd.term p n (c.peerMatch p)
  incoming : ∀ inc, c.incomingSnapshot = some inc →
    ∃ P u, Committed m0 F u P ∧ P.length = inc.lastIndex ∧ lastTerm P = inc.lastTerm

variable {m0 : Finset N} {n : N} {nd : Node N (LogEntry N C)}

theorem Sim.mono {F G : Set (Fact N (LogEntry N C))} {c : Vital N C S} (hFG : F ⊆ G) (h : Sim m0 F n nd c) :
    Sim m0 G n nd c := by
  refine { h with
    first := fun hrole hfirst => ?_, progress := fun hrole p hp => (h.progress hrole p hp).mono hFG
    incoming := ?_ }
  · obtain ⟨K, L, hc, hrest⟩ := h.first hrole hfirst
    exact ⟨K, L, hFG hc, hrest⟩
  · intro inc hinc
    obtain ⟨P, u, hP, hrest⟩ := h.incoming inc hinc
    exact ⟨P, u, hP.weaken hFG le_rfl, hrest⟩

/-- The counters that never go back. -/
structure Vital.Grows (c d : Vital N C S) : Prop where
  term : c.currentTerm ≤ d.currentTerm
  commit : c.commitIndex ≤ d.commitIndex
  applied : c.lastApplied ≤ d.lastApplied
  base : c.snapshotIndex ≤ d.snapshotIndex

theorem Vital.Grows.refl (c : Vital N C S) : c.Grows c := ⟨le_rfl, le_rfl, le_rfl, le_rfl⟩

theorem Vital.Grows.trans {c d e : Vital N C S} (h : c.Grows d) (h' : d.Grows e) : c.Grows e :=
  ⟨h.term.trans h'.term, h.commit.trans h'.commit, h.applied.trans h'.applied, h.base.trans h'.base⟩

/-- The protocol follows the core: local steps of node `n` lead from `a` to a state that the core
`d` stands in, and that justifies what was sent. -/
def Tracks (m0 : Finset N) (n : N) (a : State N (LogEntry N C)) (c d : Vital N C S) (sent : List (Out N C)) :
    Prop :=
  c.Grows d ∧ ∃ a', LocalRun m0 n a a' ∧ Sim m0 a'.facts n (a'.node n) d ∧
    ∀ o ∈ sent, Justifies m0 a'.facts n o.1 o.2

variable {a : State N (LogEntry N C)} {c d e : Vital N C S} {sent : List (Out N C)}

/-- The core moved and the protocol did not. -/
theorem Tracks.stay (hgrows : c.Grows d) (hsim : Sim m0 a.facts n (a.node n) d)
    (hsent : ∀ o ∈ sent, Justifies m0 a.facts n o.1 o.2) : Tracks m0 n a c d sent :=
  ⟨hgrows, a, .refl a, hsim, hsent⟩

theorem Tracks.step {new : Set (Fact N (LogEntry N C))}
    (hgrows : c.Grows d) (hstep : Local m0 a.facts n (a.node n) nd new) (hsim : Sim m0 (a.facts ∪ new) n nd d)
    (hsent : ∀ o ∈ sent, Justifies m0 (a.facts ∪ new) n o.1 o.2) : Tracks m0 n a c d sent := by
  refine ⟨hgrows, a.update n nd new, .single hstep, ?_, hsent⟩
  rw [State.update_node_self]
  exact hsim

/-- A silent move after local steps that justify what was sent. -/
theorem Tracks.after {a' : State N (LogEntry N C)} (hrun : LocalRun m0 n a a') (hgrows : c.Grows d)
    (hsent : ∀ o ∈ sent, Justifies m0 a'.facts n o.1 o.2) (h : Tracks m0 n a' d e []) :
    Tracks m0 n a c e sent := by
  obtain ⟨hgrows', a'', hrun', hsim, -⟩ := h
  exact ⟨hgrows.trans hgrows', a'', hrun.trans hrun', hsim, fun o ho => (hsent o ho).mono hrun'.facts_subset⟩

end AnimusDb.Raft
