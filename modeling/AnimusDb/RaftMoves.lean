import AnimusDb.GroupRun

/-! The moves of one core. Every operation is a sequence of moves on the vital part of the core:
the elementary transitions of the protocol, each with the guard under which the code takes it and
the message it was taken for, and the emission of messages. Invariants are proved per move. -/

open QuorumSets List

namespace AnimusDb.Raft

variable {N C S : Type} [LinearOrder N] [StateMachine C S]

/-- What an outgoing message says about the core that produces it. The positive answers to a leader
are not here: they come with the move that earns them. -/
def Vital.Emits (c : Vital N C S) (o : Out N C) : Prop :=
  match o.2 with
  | .requestVote term candidate lastLogIndex lastLogTerm =>
    c.role = .candidate ∧ term = c.currentTerm ∧ candidate = c.id ∧ lastLogIndex = c.lastLogIndex ∧
      lastLogTerm = c.lastLogTerm
  | .requestVoteResp term granted =>
    granted = true → c.votedFor = some o.1 ∧ term = c.currentTerm
  | .appendEntries _ _ _ _ _ _ =>
    c.role = .leader ∧ ∃ next empty, c.snapshotIndex < next ∧ o.2 = c.appendMsg next empty
  | .appendEntriesResp _ success _ _ _ _ => success = false
  | .installSnapshot term leader lastIndex lastTerm _ _ _ _ config learners =>
    c.role = .leader ∧ 0 < c.snapshotIndex ∧ term = c.currentTerm ∧ leader = c.id ∧
      lastIndex = c.snapshotIndex ∧ lastTerm = c.snapshotTerm ∧ config = c.snapshotConfig ∧
      learners = c.snapshotLearners
  | .installSnapshotResp _ lastIndex _ => lastIndex = 0
  | _ => True

/-- One entry of an accepted batch, on the vital part of a follower. -/
def Vital.appendStep (acc : Vital N C S × Nat) (entry : LogEntry N C) : Vital N C S × Nat :=
  let (c, idx) := acc
  let idx := idx + 1
  if idx ≤ c.lastLogIndex then
    if c.termAt idx ≠ entry.term then
      if idx ≤ c.snapshotIndex then ({ c with panicked := true }, idx)
      else ((c.logTruncate (idx - c.snapshotIndex - 1)).pushEntry entry, idx)
    else (c, idx)
  else (c.pushEntry entry, idx)

/-- The commit rule of a follower, on the vital part. -/
def Vital.followCommit (c : Vital N C S) (leaderCommit idx : Nat) : Vital N C S :=
  if c.commitIndex < leaderCommit ∧ c.commitIndex < min leaderCommit idx then
    Vital.apply { c with commitIndex := min leaderCommit idx }
  else c

/-- The membership rule of a leader's own entry. -/
def Vital.MayPropose (c : Vital N C S) : Option (Finset N) → Option (Finset N) → Prop
  | none, none => True
  | some voters, some _ =>
    c.firstTermIndex ≤ c.commitIndex ∧ c.configChangeInFlight = false ∧
      (symmDiff c.config voters).card ≤ 1 ∧ (c.id ∈ voters ∨ c.config ⊆ voters)
  | _, _ => False

/-- The entry that a leader appends. -/
def Ledger.ownEntry (c : Ledger N C) (command : C) (config learners : Option (Finset N)) : LogEntry N C where
  term := c.currentTerm
  index := c.lastLogIndex + 1
  command := command
  config := config
  learners := learners

variable (N C S) in
/-- What the snapshots of a run are required to meet: whether cores compact their logs, and a
condition on each install that reads the core, the image that completes, and the last index of the
message that completes it. The condition must not depend on term, vote or role. -/
structure SnapshotRules where
  compact : Prop
  install : Vital N C S → IncomingSnapshot → Nat → Prop
  stable : ∀ c role term vote incoming inc lastIndex, install c inc lastIndex → install { c with
      role := role, currentTerm := term, votedFor := vote, incomingSnapshot := incoming } inc lastIndex

/-- One move of a core that may read the messages `In`. -/
inductive Move (In : N → RaftMsg N C → Prop) (G : SnapshotRules N C S) :
    Vital N C S → Vital N C S → List (Out N C) → Prop where
  | emit (c : Vital N C S) (o : Out N C) (hemits : c.Emits o) : Move In G c c [o]
  | forget (c : Vital N C S) (m : BTreeMap N Nat)
      (hm : ∀ p, m[p]?.getD 0 = c.peerMatch p ∨ m[p]?.getD 0 = 0) :
      Move In G c { c with matchIndex := m } []
  | adoptTerm (c : Vital N C S) (term : Nat) (hterm : c.currentTerm < term) :
      Move In G c { c with currentTerm := term, votedFor := none, role := .follower } []
  | demote (c : Vital N C S) (role : Role) (votes : Finset N)
      (hrole : role = .follower ∨ role = .preCandidate) :
      Move In G c { c with role := role, votes := votes } []
  | campaign (c : Vital N C S) (hmember : c.id ∈ c.config) :
      Move In G c { c with
          role := .candidate, currentTerm := c.currentTerm + 1, votedFor := some c.id, votes := {c.id} } []
  | grant (c : Vital N C S) (sender candidate : N) (lastLogIndex lastLogTerm : Nat)
      (hin : In sender (.requestVote c.currentTerm candidate lastLogIndex lastLogTerm))
      (hvote : c.votedFor = none ∨ c.votedFor = some candidate)
      (hlog : c.logOk lastLogIndex lastLogTerm = true) :
      Move In G c { c with votedFor := some candidate } []
  | collect (c : Vital N C S) (sender : N)
      (hin : In sender (.requestVoteResp c.currentTerm true)) (hrole : c.role = .candidate)
      (hmember : sender ∈ c.config) :
      Move In G c { c with votes := insert sender c.votes } []
  | lead (c : Vital N C S) (m : BTreeMap N Nat) (hrole : c.role = .candidate)
      (hmajority : c.majority ≤ c.votes.card)
      (hm : ∀ p, p ∈ c.peers ∨ p ∈ c.learners → m[p]?.getD 0 = 0) :
      Move In G c (Vital.pushEntry { c with role := .leader, matchIndex := m, firstTermIndex := c.lastLogIndex + 1 }
        (noopEntry S c.currentTerm (c.lastLogIndex + 1))) []
  | append (c : Vital N C S) (m : BTreeMap N Nat) (command : C)
      (config learners : Option (Finset N)) (hrole : c.role = .leader)
      (hmay : c.MayPropose config learners)
      (hm : ∀ p, p ∈ (c.pushEntry (c.ownEntry command config learners)).peers ∨
          p ∈ (c.pushEntry (c.ownEntry command config learners)).learners →
        m[p]?.getD 0 = 0 ∨ m[p]?.getD 0 = c.peerMatch p ∧ (p ∈ c.peers ∨ p ∈ c.learners)) :
      Move In G c { c.pushEntry (c.ownEntry command config learners) with matchIndex := m } []
  | recordMatch (c : Vital N C S) (sender : N) (index : Nat)
      (hin : (∃ needs check applied, In sender (.appendEntriesResp c.currentTerm true index needs check applied)) ∨
        ∃ next, In sender (.installSnapshotResp c.currentTerm index next))
      (hrole : c.role = .leader) :
      Move In G c { c with matchIndex := c.matchIndex.insert sender (max (c.peerMatch sender) index) } []
  | advance (c : Vital N C S) (hrole : c.role = .leader) : Move In G c c.maybeAdvanceCommit []
  | apply (c : Vital N C S) (hrole : c.role = .leader) : Move In G c c.apply []
  | accept (c : Vital N C S) (sender leader : N) (prevLogIndex prevLogTerm : Nat)
      (entries : List (LogEntry N C)) (leaderCommit index : Nat) (needs check : Bool)
      (applied : Nat)
      (hin : In sender (.appendEntries c.currentTerm leader prevLogIndex prevLogTerm entries leaderCommit))
      (hrole : c.role = .follower) (hprev : c.snapshotIndex ≤ prevLogIndex)
      (hmatch : prevLogIndex = 0 ∨ prevLogIndex ≤ c.lastLogIndex ∧ c.termAt prevLogIndex = prevLogTerm)
      (hindex : index ≤ (entries.foldl Vital.appendStep (c, prevLogIndex)).2) :
      Move In G c (Vital.followCommit (entries.foldl Vital.appendStep (c, prevLogIndex)).1 leaderCommit
          (entries.foldl Vital.appendStep (c, prevLogIndex)).2)
        [(leader, .appendEntriesResp c.currentTerm true index needs check applied)]
  | ackBase (c : Vital N C S) (sender leader : N) (prevLogIndex prevLogTerm : Nat)
      (entries : List (LogEntry N C)) (leaderCommit : Nat) (needs check : Bool) (applied : Nat)
      (hin : In sender (.appendEntries c.currentTerm leader prevLogIndex prevLogTerm entries leaderCommit))
      (hrole : c.role = .follower) :
      Move In G c c [(leader, .appendEntriesResp c.currentTerm true c.snapshotIndex needs check applied)]
  | chunk (c : Vital N C S) (sender leader : N) (lastIndex lastTerm offset : Nat) (data : Bytes)
      (total : Nat) (done : Bool) (config learners : Option (Finset N))
      (hin : In sender (.installSnapshot c.currentTerm leader lastIndex lastTerm offset data total done config
        learners)) :
      Move In G c { c with
          incomingSnapshot := reassemble c.incomingSnapshot lastIndex lastTerm offset data total } []
  | dropImage (c : Vital N C S) : Move In G c { c with incomingSnapshot := none } []
  | install (c : Vital N C S) (sender leader : N) (inc : IncomingSnapshot)
      (lastIndex lastTerm offset : Nat) (data : Bytes) (total : Nat) (done : Bool)
      (config learners : Option (Finset N)) (metadata : S)
      (hin : In sender (.installSnapshot c.currentTerm leader lastIndex lastTerm offset data total done config
        learners))
      (hrole : c.role = .follower) (hinc : c.incomingSnapshot = some inc)
      (hlast : c.lastApplied ≤ lastIndex) (hrules : G.install c inc lastIndex) :
      Move In G c (Vital.install { c with incomingSnapshot := none, metadata := metadata } inc config
        learners) [(leader, .installSnapshotResp c.currentTerm inc.lastIndex inc.total)]
  | compact (c : Vital N C S) (newIndex : Nat) (hbase : c.snapshotIndex < newIndex)
      (hindex : newIndex ≤ c.lastApplied) (hrules : G.compact) :
      Move In G c (c.compactTo newIndex) []

/-- A sequence of moves, with everything it sends. -/
inductive Moves (In : N → RaftMsg N C → Prop) (G : SnapshotRules N C S) :
    Vital N C S → Vital N C S → List (Out N C) → Prop where
  | refl (c : Vital N C S) : Moves In G c c []
  | tail {a b c : Vital N C S} {sent more : List (Out N C)} (hmoves : Moves In G a b sent)
      (hmove : Move In G b c more) : Moves In G a c (sent ++ more)

namespace Moves

variable {In : N → RaftMsg N C → Prop} {G : SnapshotRules N C S} {a b c : Vital N C S}
  {sent more : List (Out N C)}

theorem single (h : Move In G a b sent) : Moves In G a b sent :=
  (Moves.refl a).tail h

theorem trans (h₁ : Moves In G a b sent) (h₂ : Moves In G b c more) : Moves In G a c (sent ++ more) := by
  induction h₂ with
  | refl => simpa using h₁
  | tail _ hmove ih =>
    rw [← append_assoc]
    exact ih.tail hmove

theorem before (h₁ : Moves In G a b []) (h₂ : Moves In G b c sent) : Moves In G a c sent :=
  h₁.trans h₂

theorem after (h₁ : Moves In G a b sent) (h₂ : Moves In G b c []) : Moves In G a c sent := by
  simpa using h₁.trans h₂

theorem emitAll (h : ∀ o ∈ sent, a.Emits o) : Moves In G a a sent := by
  induction sent with
  | nil => exact .refl a
  | cons o rest ih =>
    have hrest := ih fun o ho => h o (mem_cons_of_mem _ ho)
    exact (single (.emit a o (h o mem_cons_self))).trans hrest

/-- What each move preserves, a sequence of moves preserves; what each move sends, it sends. -/
theorem preserves {P : Vital N C S → Prop} {Q : Out N C → Prop}
    (hstep : ∀ a b sent, P a → Move In G a b sent → P b ∧ ∀ o ∈ sent, Q o)
    (h : Moves In G a b sent) (ha : P a) : P b ∧ ∀ o ∈ sent, Q o := by
  induction h with
  | refl => exact ⟨ha, by simp⟩
  | tail _ hmove ih =>
    obtain ⟨hb, hsent⟩ := ih
    obtain ⟨hc, hmore⟩ := hstep _ _ _ hb hmove
    refine ⟨hc, fun o ho => ?_⟩
    exact (mem_append.mp ho).elim (hsent o) (hmore o)

end Moves

end AnimusDb.Raft
