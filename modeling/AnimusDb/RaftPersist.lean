import AnimusDb.RaftLog

/-! Creation, recovery, draining and compaction of a core: `RaftCore::new`, `PersistedState::replay`
and `RaftCore::recovered`, the records that `drain_persist` hands to the WAL, the rewritten image
`wal_image`, and `snapshot_upto`. -/

open QuorumSets

namespace AnimusDb.Raft

variable {N C S : Type} [LinearOrder N]

def Timers.stretchedBase (t : Timers) : Nat :=
  saturatingAdd (asNanos t.electionBase) (asNanos t.lagStretch)

/-- The instant one randomized election timeout after `now`. -/
def Timers.randomizedDeadline (t : Timers) (now : Nanos) (entropy : Nat) : Nanos :=
  let base := t.stretchedBase
  let extra := if base = 0 then 0 else entropy % base
  saturatingAdd now (saturatingAdd base extra)

variable (c : RaftCore N C S)

def RaftCore.resetElectionTimer (now : Nanos) (entropy : Nat) : RaftCore N C S :=
  { c with electionDeadline := c.randomizedDeadline now entropy, campaignHold := none }

namespace PersistedState

/-- `PersistedState::default`. -/
def empty : PersistedState N C S where
  term := 0
  votedFor := none
  log := []
  snapshot := none
  snapshotConfig := none
  snapshotLearners := none

variable (state : PersistedState N C S)

/-- One record of `PersistedState::replay`. -/
def replayRecord : WalRecord N C S → PersistedState N C S
  | .hard term votedFor => { state with term := term, votedFor := votedFor }
  | .append entry => { state with log := state.log ++ [entry] }
  | .truncate keep => { state with log := state.log.take keep }
  | .snapshot metadata lastIndex lastTerm config learners =>
    { state with
      log := [], snapshot := some (metadata, lastIndex, lastTerm), snapshotConfig := config,
      snapshotLearners := learners }

def replay (records : List (WalRecord N C S)) : PersistedState N C S :=
  records.foldl replayRecord empty

/-- The index that the replayed log starts after. -/
def base : Nat :=
  match state.snapshot with
  | some (_, lastIndex, _) => lastIndex
  | none => 0

/-- The scan of `check_log_contiguous` from position `pos` on. -/
def checkFrom (base : Nat) : Nat → List (LogEntry N C) → Except String Unit
  | _, [] => .ok ()
  | pos, entry :: rest =>
    let expected := base + 1 + pos
    let carried := entry.index
    if carried ≠ expected then
      .error (s!"recovered log is not contiguous with its snapshot base {base}: the entry at " ++
        s!"position {pos} carries index {carried} but position {pos} must hold index {expected}")
    else checkFrom base (pos + 1) rest

def checkLogContiguous : Except String Unit :=
  checkFrom state.base 0 state.log

end PersistedState

def Vital.checkpointHard (c : Vital N C S) : Vital N C S :=
  if (c.currentTerm, c.votedFor) ≠ c.persistedHard then
    { c with
      persistedHard := (c.currentTerm, c.votedFor), pending := c.pending ++
      [WalRecord.hard c.currentTerm c.votedFor] }
  else c

def Vital.walImage (c : Vital N C S) : List (WalRecord N C S) :=
  (if 0 < c.snapshotIndex then
    [WalRecord.snapshot c.metadata c.snapshotIndex c.snapshotTerm c.snapshotConfig c.snapshotLearners]
  else []) ++ WalRecord.hard c.currentTerm c.votedFor :: c.log.map WalRecord.append

def RaftCore.drainPersist : RaftCore N C S × List (WalRecord N C S) :=
  let v := c.toVital.checkpointHard
  ({ c with toVital := { v with pending := [] } }, v.pending)

def RaftCore.takeSnapshotDirty : RaftCore N C S × Bool :=
  ({ c with installRewriteOwed := false, snapshotDirty := false }, c.snapshotDirty)

variable [StateMachine C S]

def RaftCore.new (id : N) (allNodes : List N) (now : Nanos) (entropy : Nat) : RaftCore N C S :=
  RaftCore.resetElectionTimer
    { id := id
      peers := allNodes.filter (fun n => n ≠ id)
      clusterSize := allNodes.length, config := allNodes.toFinset, initialConfig := allNodes.toFinset
      snapshotConfig := none, learners := ∅, initialLearners := ∅, snapshotLearners := none
      role := .follower, currentTerm := 0, votedFor := none, log := [], snapshotIndex := 0
      snapshotTerm := 0, commitIndex := 0, lastApplied := 0, durableIndex := 0, votes := ∅
      matchIndex := ∅, firstTermIndex := 0, incomingSnapshot := none, pendingApply := []
      panicked := false, metadata := StateMachine.default C, applied := [], pending := []
      persistedHard := (0, none), snapshotDirty := false, walRecordsInstall := false
      installRewriteOwed := false, snapshotBlob := none, snapshotChunkBytes := snapshotChunkBytes
      pendingInstall := none, snapshotNeeded := false, stateMachineBehind := false
      storageFull := false, lastInstalledIndex := none, clusterCheck := .idle, removedByLeader := none
      localApplied := 0, logOmitsBase := false, leaderId := none, preVotes := ∅, heardFrom := ∅
      nextIndex := ∅, inflightSent := ∅, snapshotServedThrough := ∅, peerCheckPending := ∅
      peerRecoveredAt := ∅, lastContact := ∅, transferTarget := none, transferDeadline := 0
      departing := ∅, snapshotSend := ∅, voteLeaseLapsed := false, leaseGraceUntil := 0, nowHint := 0
      electionBase := 150 * 10 ^ 6, heartbeatInterval := 50 * 10 ^ 6, electionDeadline := 0
      heartbeatDeadline := 0, lagStretch := 0, campaignHold := none, quiesceAfter := none
      quiesced := false, lastActivity := now, quiesceEngineCaughtUp := true, quiesceVeto := false
      quiesceVetoFreshThrough := u64Max } now entropy

/-- The replayed snapshot base, as `recovered` installs it. -/
def RaftCore.restoreSnapshot (c : RaftCore N C S) (metadata : S) (lastIndex lastTerm : Nat) : RaftCore N C S :=
  { c with
    metadata := metadata, snapshotIndex := lastIndex, snapshotTerm := lastTerm, lastApplied := lastIndex,
    commitIndex := lastIndex
    snapshotBlob :=
      if StateMachine.driverApplied C S then c.snapshotBlob
      else some (StateMachine.encodeImage C metadata) }

/-- `RaftCore::recovered` up to the recomputation of the configuration. -/
def RaftCore.loaded (id : N) (allNodes : List N) (persisted : PersistedState N C S) (now : Nanos)
    (entropy : Nat) : RaftCore N C S :=
  let c : RaftCore N C S := RaftCore.new id allNodes now entropy
  let c := { c with
    currentTerm := persisted.term, votedFor := persisted.votedFor, log := persisted.log }
  let c := match persisted.snapshot with
    | some (metadata, lastIndex, lastTerm) => c.restoreSnapshot metadata lastIndex lastTerm
    | none => c
  { c with
    snapshotConfig := persisted.snapshotConfig, snapshotLearners := persisted.snapshotLearners }

/-- The last assignments of `RaftCore::recovered`. -/
def Vital.settle (c : Vital N C S) : Vital N C S :=
  let c := c.recomputeConfig
  { c with
    durableIndex := c.lastLogIndex, persistedHard := (c.currentTerm, c.votedFor), pending := [] }

def RaftCore.recovered (id : N) (allNodes : List N) (persisted : PersistedState N C S)
    (now : Nanos) (entropy : Nat) : RaftCore N C S :=
  let c := RaftCore.loaded id allNodes persisted now entropy
  { c with toVital := c.toVital.settle }

/-- The part of `snapshot_upto` that concerns log, configuration and WAL. -/
def Vital.compactTo (c : Vital N C S) (newIndex : Nat) : Vital N C S :=
  { c with
    snapshotConfig := some (c.configAt newIndex), snapshotLearners := some (c.learnersAt newIndex)
    log := c.log.filter (fun e => newIndex < e.index)
    applied := c.applied.drop (c.applied.length - (c.lastApplied - newIndex)), snapshotIndex := newIndex
    snapshotTerm := c.termAt newIndex, snapshotDirty := true }

def RaftCore.snapshotUpto (c : RaftCore N C S) (index : Nat) : RaftCore N C S :=
  let newIndex := min index c.lastApplied
  if newIndex ≤ c.snapshotIndex then c
  else
    let c := { c with toVital := c.toVital.compactTo newIndex }
    if StateMachine.driverApplied C S then { c with snapshotBlob := none, snapshotSend := ∅ }
    else { c with snapshotBlob := some (StateMachine.encodeImage C c.metadata) }

end AnimusDb.Raft
