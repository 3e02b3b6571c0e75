import AnimusDb.RaftTypes

/-! The log of a core and what is computed from it: terms and configurations at an index, the
append, truncate, commit and apply operations, and the per-peer bookkeeping that a membership
entry resets. -/

open QuorumSets

namespace AnimusDb.Raft

variable {N C S : Type} [LinearOrder N]

def Ledger.lastLogIndex (c : Ledger N C) : Nat :=
  match c.log.getLast? with
  | some e => e.index
  | none => c.snapshotIndex

def Ledger.lastLogTerm (c : Ledger N C) : Nat :=
  match c.log.getLast? with
  | some e => e.term
  | none => c.snapshotTerm

def Ledger.termAt (c : Ledger N C) (index : Nat) : Nat :=
  if index = 0 then 0
  else if index = c.snapshotIndex then c.snapshotTerm
  else if index < c.snapshotIndex then 0
  else
    match c.log[index - c.snapshotIndex - 1]? with
    | some e => e.term
    | none => 0

def Membership.majority (c : Membership N) : Nat := c.clusterSize / 2 + 1

def RaftCore.isVoter (c : RaftCore N C S) : Bool :=
  c.removedByLeader.isNone && decide (c.id ∈ c.config)

def Ledger.peerMatch (c : Ledger N C) (node : N) : Nat := c.matchIndex[node]?.getD 0

/-- The latest membership entry at or below `index`. -/
def lastConfigEntry (log : List (LogEntry N C)) (index : Nat) : Option (LogEntry N C) :=
  log.reverse.find? fun e => decide (e.index ≤ index) && e.config.isSome

def Ledger.configAt (c : Ledger N C) (index : Nat) : Finset N :=
  (((lastConfigEntry c.log index).bind (·.config)).or c.snapshotConfig).getD c.initialConfig

def Ledger.learnersAt (c : Ledger N C) (index : Nat) : Finset N :=
  (((lastConfigEntry c.log index).bind (·.learners)).or c.snapshotLearners).getD c.initialLearners

def Ledger.configChangeInFlight (c : Ledger N C) : Bool :=
  c.log.any fun e => e.config.isSome && decide (c.commitIndex < e.index)

def Vital.applyConfig (c : Vital N C S) (voters learners : Finset N) : Vital N C S :=
  { c with
    peers := (ascending voters).filter (fun n => n ≠ c.id)
    clusterSize := voters.card, config := voters, learners := learners }

def Vital.recomputeConfig (c : Vital N C S) : Vital N C S :=
  c.applyConfig (c.configAt c.lastLogIndex) (c.learnersAt c.lastLogIndex)

/-- The part of `log_append` that concerns log, configuration and WAL. -/
def Vital.pushEntry (c : Vital N C S) (entry : LogEntry N C) : Vital N C S :=
  let c := match entry.config with
    | some voters => c.applyConfig voters (entry.learners.getD c.learners)
    | none => c
  { c with pending := c.pending ++ [WalRecord.append entry], log := c.log ++ [entry] }

def Vital.logTruncate (c : Vital N C S) (keep : Nat) : Vital N C S :=
  let c := { c with log := c.log.take keep }
  let c := { c with durableIndex := min c.durableIndex c.lastLogIndex }
  let c := { c with pending := c.pending ++ [WalRecord.truncate keep] }
  c.recomputeConfig

/-- `maybe_advance_commit`'s replica count: the leader and the peers whose match reached `n`. -/
def Ledger.replicasAt (c : Ledger N C) (n : Nat) : Nat :=
  1 + (c.peers.filter (fun p => decide (n ≤ c.peerMatch p))).length

/-- The downward search of `maybe_advance_commit` from `n`, which yields the new commit index. -/
def Ledger.advanceFrom (c : Ledger N C) : Nat → Nat
  | 0 => c.commitIndex
  | n + 1 =>
    if n + 1 ≤ c.commitIndex then c.commitIndex
    else if c.termAt (n + 1) = c.currentTerm ∧ c.majority ≤ c.replicasAt (n + 1) then n + 1
    else c.advanceFrom n

def Vital.maybeAdvanceCommit (c : Vital N C S) : Vital N C S :=
  { c with commitIndex := c.advanceFrom c.lastLogIndex }

/-- The index up to which `apply` may go: a leader stops at what it has synced. -/
def Ledger.applyFrontier (c : Ledger N C) : Nat :=
  if c.role = .leader then min c.commitIndex c.durableIndex else c.commitIndex

section Apply

variable [StateMachine C S]

/-- One turn of `apply`'s loop. An index out of the log's range, a panic of the source, sets
`panicked`. -/
def Vital.applyOne (c : Vital N C S) : Vital N C S :=
  let lastApplied := c.lastApplied + 1
  if lastApplied ≤ c.snapshotIndex then { c with panicked := true }
  else
    match c.log[lastApplied - c.snapshotIndex - 1]? with
    | none => { c with panicked := true }
    | some entry =>
      if StateMachine.driverApplied C S then
        { c with
          lastApplied := lastApplied, pendingApply := c.pendingApply ++
          [(lastApplied, entry.term, entry.command)] }
      else
        { c with
          lastApplied := lastApplied, metadata := StateMachine.apply c.metadata entry.command
          applied := c.applied ++ [entry.command] }

/-- `steps` turns of `apply`'s loop. -/
def Vital.applyTimes : Nat → Vital N C S → Vital N C S
  | 0, c => c
  | steps + 1, c => Vital.applyTimes steps c.applyOne

def Vital.apply (c : Vital N C S) : Vital N C S :=
  Vital.applyTimes (c.applyFrontier - c.lastApplied) c

def Vital.markDurableThrough (c : Vital N C S) (index : Nat) : Vital N C S :=
  if c.durableIndex < index then Vital.apply { c with durableIndex := index } else c

def RaftCore.apply (c : RaftCore N C S) : RaftCore N C S := { c with toVital := c.toVital.apply }

def RaftCore.markDurableThrough (c : RaftCore N C S) (index : Nat) : RaftCore N C S :=
  { c with toVital := c.toVital.markDurableThrough index }

end Apply

def RaftCore.maybeAdvanceCommit (c : RaftCore N C S) : RaftCore N C S :=
  { c with toVital := c.toVital.maybeAdvanceCommit }

def RaftCore.logTruncate (c : RaftCore N C S) (keep : Nat) : RaftCore N C S :=
  { c with toVital := c.toVital.logTruncate keep }

def RaftCore.drainApply (c : RaftCore N C S) : RaftCore N C S × List (Nat × Nat × C) :=
  ({ c with pendingApply := [] }, c.pendingApply)

def RaftCore.latestSelfMembershipStamp (c : RaftCore N C S) : Option EntryStamp :=
  let includes (voters : Finset N) (learners : Option (Finset N)) : Bool :=
    decide (c.id ∈ voters) || learners.any (fun l => decide (c.id ∈ l))
  match c.log.reverse.find? (fun e => e.config.any (fun voters => includes voters e.learners)) with
  | some e => some (e.term, e.index)
  | none =>
    match c.snapshotConfig with
    | some voters =>
      if includes voters c.snapshotLearners then some (c.snapshotTerm, c.snapshotIndex) else none
    | none => if includes c.initialConfig (some c.initialLearners) then some (0, 0) else none

def RaftCore.refreshRemovedFlag (c : RaftCore N C S) : RaftCore N C S :=
  match c.removedByLeader with
  | none => c
  | some removal =>
    if c.latestSelfMembershipStamp.any (fun member => EntryStamp.lt removal member) then
      { c with removedByLeader := none }
    else c

variable [StateMachine C S]

namespace RaftCore

def forgetSnapshotTransfer (c : RaftCore N C S) (peer : N) : RaftCore N C S :=
  let c := { c with snapshotSend := c.snapshotSend.erase peer }
  if StateMachine.driverApplied C S && c.snapshotSend.isEmpty then
    { c with snapshotBlob := none }
  else c

/-- The progress of a member that was just added, as `reset_peer_progress_on_membership_change`
sets it. -/
def resetAddedPeer (entryIndex : Nat) (c : RaftCore N C S) (n : N) : RaftCore N C S :=
  forgetSnapshotTransfer { c with
      inflightSent := c.inflightSent.erase n, nextIndex := c.nextIndex.insert n entryIndex,
      matchIndex := c.matchIndex.insert n 0
      snapshotServedThrough := c.snapshotServedThrough.erase n, peerCheckPending := c.peerCheckPending.erase n
      peerRecoveredAt := c.peerRecoveredAt.erase n } n

/-- The removal of every trace of a peer, shared by `drop_departing` and the membership reset. -/
def forgetPeerProgress (c : RaftCore N C S) (n : N) : RaftCore N C S :=
  forgetSnapshotTransfer { c with
      inflightSent := c.inflightSent.erase n, nextIndex := c.nextIndex.erase n,
      matchIndex := c.matchIndex.erase n
      lastContact := c.lastContact.erase n, snapshotServedThrough := c.snapshotServedThrough.erase n
      peerCheckPending := c.peerCheckPending.erase n, peerRecoveredAt := c.peerRecoveredAt.erase n } n

/-- The reset of a member that was just removed: a departing peer keeps its progress. -/
def resetRemovedPeer (c : RaftCore N C S) (n : N) : RaftCore N C S :=
  if c.departing.contains n then c else c.forgetPeerProgress n

def resetPeerProgressOnMembershipChange (c : RaftCore N C S) (oldMembers : Finset N) (entryIndex : Nat) :
    RaftCore N C S :=
  let nowMembers := c.peers.toFinset ∪ c.learners
  let c := (ascending (nowMembers \ oldMembers)).foldl (resetAddedPeer entryIndex) c
  (ascending (oldMembers \ nowMembers)).foldl resetRemovedPeer c

def dropDeparting (c : RaftCore N C S) (peer : N) : RaftCore N C S :=
  forgetPeerProgress { c with departing := c.departing.erase peer } peer

/-- The peers that a membership entry removes become departing peers of the leader. -/
def noteRemovedPeers (c : RaftCore N C S) (oldPeers : List N) (entry : LogEntry N C) : RaftCore N C S :=
  (oldPeers.filter (fun n => n ∉ c.peers)).foldl (fun c removed =>
    if removed ∈ c.learners then c
    else { c with departing := c.departing.insert removed { stamp := ⟨entry.index, entry.term⟩ } }) c

/-- The effect of a membership entry on the leader's peer bookkeeping, in `log_append`: `before` is
the core before the entry's configuration took effect. -/
def adoptMembers (c before : RaftCore N C S) (entry : LogEntry N C) : RaftCore N C S :=
  let c := if c.role = .leader then c.noteRemovedPeers before.peers entry else c
  let c := { c with departing := c.departing.filter (fun n _ => n ∉ c.peers && n ∉ c.learners) }
  let c := if c.role = .leader then
      c.resetPeerProgressOnMembershipChange (before.peers.toFinset ∪ before.learners) entry.index
    else c
  c.refreshRemovedFlag

/-- `log_append`. The peer bookkeeping of a membership entry does not read the log, and the removed
flag is refreshed after the push, so the push may come first. -/
def logAppend (c : RaftCore N C S) (entry : LogEntry N C) : RaftCore N C S :=
  let pushed := { c with toVital := c.toVital.pushEntry entry }
  if entry.config.isSome then pushed.adoptMembers c entry else pushed

end RaftCore

end AnimusDb.Raft
