import AnimusDb.RaftElection

/-! Replication and the public operations of a core: `AppendEntries` and `InstallSnapshot` with
their answers, removal notices, quiescence, `handle`, proposals and membership changes. -/

open QuorumSets

namespace AnimusDb.Raft

variable {N C S : Type} [LinearOrder N] (c : RaftCore N C S)

/-- A core's answer to an `AppendEntries`. -/
def RaftCore.appendResp (success : Bool) (matchIndex : Nat) : RaftMsg N C :=
  .appendEntriesResp c.currentTerm success matchIndex c.stateMachineBehind c.cannotVoteYet c.localApplied

/-- A leader's message of the current term was accepted: follow that leader. -/
def RaftCore.followLeader (leader : N) (now : Nanos) (entropy : Nat) : RaftCore N C S :=
  RaftCore.resetElectionTimer { c with role := .follower, leaderId := some leader } now entropy

variable (incoming : Option IncomingSnapshot)

/-- Whether the image `(lastIndex, total)` is not the one being reassembled. -/
def isFresh (lastIndex total : Nat) : Bool :=
  match incoming with
  | some inc => decide (inc.lastIndex ≠ lastIndex) || decide (inc.total ≠ total)
  | none => true

/-- The first chunk of a fresh image opens a new buffer. -/
def openImage (lastIndex lastTerm offset total : Nat) : Option IncomingSnapshot :=
  if isFresh incoming lastIndex total && decide (offset = 0) then
    some { lastIndex := lastIndex, lastTerm := lastTerm, total := total, buf := [] }
  else incoming

/-- The buffer after the chunk at `offset` of the image `(lastIndex, lastTerm, total)`. -/
def reassemble (lastIndex lastTerm offset : Nat) (data : Bytes) (total : Nat) : Option IncomingSnapshot :=
  match openImage incoming lastIndex lastTerm offset total with
  | some inc =>
    if inc.lastIndex = lastIndex ∧ offset = inc.buf.length then
      some { inc with buf := inc.buf ++ data }
    else some inc
  | none => none

/-- The image that the chunk marked `done` completes. -/
def completedImage (done : Bool) : Option IncomingSnapshot :=
  match incoming with
  | some inc => if done && decide (inc.buf.length = inc.total) then some inc else none
  | none => none

/-- The early exits of `handle_install_snapshot`: an image that this core already holds. -/
def RaftCore.installRedundant (lastIndex : Nat) : Bool :=
  decide (c.lastInstalledIndex = some lastIndex) || decide (lastIndex < c.lastApplied) ||
    (decide (lastIndex = c.lastApplied) && !c.stateMachineBehind)

section Machine

variable [StateMachine C S]

namespace RaftCore

/-- One entry of the loop of `handle_append_entries`, with the index reached before it. The
subtraction that finds the position to cut at panics below the snapshot base. -/
def appendStep (acc : RaftCore N C S × Nat) (entry : LogEntry N C) : RaftCore N C S × Nat :=
  let (c, idx) := acc
  let idx := idx + 1
  if idx ≤ c.lastLogIndex then
    if c.termAt idx ≠ entry.term then
      if idx ≤ c.snapshotIndex then ({ c with panicked := true }, idx)
      else ((c.logTruncate (idx - c.snapshotIndex - 1)).logAppend entry, idx)
    else (c, idx)
  else (c.logAppend entry, idx)

variable (c : RaftCore N C S)

/-- The commit rule of a follower: the leader's commit index, but not past what this message
matched. -/
def followCommit (leaderCommit idx : Nat) : RaftCore N C S :=
  if c.commitIndex < leaderCommit ∧ c.commitIndex < min leaderCommit idx then
    apply { c with commitIndex := min leaderCommit idx }
  else c

/-- The accepting branch of `handle_append_entries`. -/
def acceptEntries (leader : N) (prevLogIndex : Nat)
    (entries : List (LogEntry N C)) (leaderCommit : Nat) : RaftCore N C S × List (Out N C) :=
  let (c, idx) := entries.foldl appendStep (c, prevLogIndex)
  let c := c.followCommit leaderCommit idx
  let matchIndex := if c.storageFull then min idx c.durableIndex else idx
  (c, [(leader, c.appendResp true matchIndex)])

def handleAppendEntries (term : Nat) (leader : N)
    (prevLogIndex prevLogTerm : Nat) (entries : List (LogEntry N C)) (leaderCommit : Nat)
    (now : Nanos) (entropy : Nat) : RaftCore N C S × List (Out N C) :=
  let c := c.hear leader
  if term < c.currentTerm then (c, [(leader, c.appendResp false 0)])
  else
    let c := c.followLeader leader now entropy
    if prevLogIndex < c.snapshotIndex then (c, [(leader, c.appendResp true c.snapshotIndex)])
    else if 0 < prevLogIndex ∧ (c.lastLogIndex < prevLogIndex ∨ c.termAt prevLogIndex ≠ prevLogTerm) then
      (c, [(leader, c.appendResp false 0)])
    else c.acceptEntries leader prevLogIndex entries leaderCommit

/-- The bookkeeping that `handle_append_resp` does for every answer of the current term. -/
def noteContact (sender : N) (checkPending : Bool) (now : Nanos) : RaftCore N C S :=
  let wasPending := c.peerCheckPending[sender]?
  let c := { c with peerCheckPending := c.peerCheckPending.insert sender checkPending }
  let c :=
    if checkPending then { c with peerRecoveredAt := c.peerRecoveredAt.erase sender }
    else if wasPending = some true then
      { c with peerRecoveredAt := c.peerRecoveredAt.insert sender now }
    else c
  let c := { c with lastContact := c.lastContact.insert sender now }
  c.noteDepartingReply sender now

variable (peer : N)

/-- The match index of a peer only grows. -/
def raiseMatch (index : Nat) : RaftCore N C S :=
  { c with matchIndex := c.matchIndex.insert peer (max (c.peerMatch peer) index) }

/-- The next index to send to a peer. -/
def setNext (next : Nat) : RaftCore N C S :=
  { c with nextIndex := c.nextIndex.insert peer next }

/-- Nothing is in flight to a peer any more. -/
def clearInflight : RaftCore N C S :=
  { c with inflightSent := c.inflightSent.erase peer }

/-- The peer holds the snapshot image of `base`. -/
def noteServed (base : Nat) : RaftCore N C S :=
  let served := max (c.snapshotServedThrough[peer]?.getD 0) base
  { c with snapshotServedThrough := c.snapshotServedThrough.insert peer served }

/-- A successful answer raises the sender's match index; a departing peer that has its removal
entry is dropped. -/
def recordMatch (sender : N) (matchIndex : Nat) : RaftCore N C S :=
  let c := c.raiseMatch sender matchIndex
  if c.departing[sender]?.any (fun d => decide (d.stamp.index ≤ matchIndex)) then
    c.dropDeparting sender
  else c

/-- `replicate_to` as the tail of an answer's handler. -/
def replyTo (resend : SnapshotResend) : RaftCore N C S × List (Out N C) :=
  let (c, sent) := c.replicateTo peer resend
  (c, sent.toList)

def handleAppendResp (sender : N) (term : Nat) (success : Bool)
    (matchIndex : Nat) (needsSnapshot checkPending : Bool) (now : Nanos) : RaftCore N C S × List (Out N C) :=
  if c.role ≠ .leader ∨ term ≠ c.currentTerm then (c, [])
  else
    let c := c.noteContact sender checkPending now
    let progressed := success && decide (c.peerMatch sender < matchIndex)
    let c := if success then c.recordMatch sender matchIndex else c
    if needsSnapshot then
      let alreadyServed := c.snapshotServedThrough[sender]?.any (fun served => decide (c.snapshotIndex ≤ served))
      let c := if alreadyServed then c else c.setNext sender 1
      (c.clearInflight sender).maybeAdvanceCommit.apply.replyTo sender .always
    else if success then
      let c := c.setNext sender (max (c.nextIndex[sender]?.getD 1) (matchIndex + 1))
      let c := c.maybeAdvanceCommit.apply
      if c.nextIndex[sender]?.getD 1 ≤ c.lastLogIndex ∧ (progressed || !checkPending) then
        c.replyTo sender .always
      else (c, [])
    else
      let next := c.nextIndex[sender]?.getD 1
      let c := c.setNext sender (if 1 < next then next - 1 else next)
      (c.clearInflight sender).replyTo sender .always

end RaftCore

/-- The part of the `install` closure that concerns log, configuration and WAL. -/
def Vital.install (c : Vital N C S) (inc : IncomingSnapshot) (config learners : Option (Finset N)) :
    Vital N C S :=
  let c := { c with
    snapshotIndex := inc.lastIndex, snapshotTerm := inc.lastTerm, lastApplied := inc.lastIndex,
    commitIndex := inc.lastIndex
    log := [], applied := [], snapshotDirty := true, snapshotConfig := config, snapshotLearners := learners }
  let c := c.recomputeConfig
  if c.walRecordsInstall then
    { c with pending := c.pending ++ [WalRecord.snapshot c.metadata c.snapshotIndex c.snapshotTerm
                          c.snapshotConfig c.snapshotLearners] }
  else { c with installRewriteOwed := true }

variable (c : RaftCore N C S)

/-- The `install` closure of `handle_install_snapshot`. The refresh of the removed flag does not
read the pending records, so it may come after them. -/
def RaftCore.install (inc : IncomingSnapshot) (config learners : Option (Finset N)) : RaftCore N C S :=
  RaftCore.refreshRemovedFlag { c with toVital := c.toVital.install inc config learners }

/-- The buffer is handed over to the install of the image of `lastIndex`. -/
def RaftCore.takeImage (lastIndex : Nat) : RaftCore N C S :=
  { c with incomingSnapshot := none, lastInstalledIndex := some lastIndex }

/-- What `handle_install_snapshot` does with a complete image. -/
def RaftCore.completeInstall (inc : IncomingSnapshot) (leader : N)
    (config learners : Option (Finset N)) : RaftCore N C S × List (Out N C) :=
  let c := c.takeImage inc.lastIndex
  let accepted : Out N C := (leader, .installSnapshotResp c.currentTerm inc.lastIndex inc.total)
  if StateMachine.driverApplied C S then
    let c := c.install inc config learners
    ({ c with snapshotBlob := none, pendingInstall := some (inc.lastIndex, inc.buf) }, [accepted])
  else
    match StateMachine.decodeImage C inc.buf with
    | some state =>
      let c := RaftCore.install { c with metadata := state } inc config learners
      ({ c with snapshotBlob := some inc.buf }, [accepted])
    | none => (c, [(leader, .installSnapshotResp c.currentTerm 0 0)])

/-- A chunk is taken into the buffer. -/
def RaftCore.takeChunk (lastIndex lastTerm offset : Nat) (data : Bytes) (total : Nat) : RaftCore N C S :=
  { c with incomingSnapshot := reassemble c.incomingSnapshot lastIndex lastTerm offset data total }

/-- The image that `handle_install_snapshot` installs for this message, if it installs one. -/
def RaftCore.installs : RaftMsg N C → Option IncomingSnapshot
  | .installSnapshot term _ lastIndex lastTerm offset data total done _ _ =>
    if term < c.currentTerm then none
    else if c.installRedundant lastIndex then none
    else
      match completedImage (reassemble c.incomingSnapshot lastIndex lastTerm offset data total)
        done with
      | some inc =>
        if StateMachine.driverApplied C S || (StateMachine.decodeImage (S := S) C inc.buf).isSome
        then some inc else none
      | none => none
  | _ => none

def RaftCore.handleInstallSnapshot (term : Nat) (leader : N)
    (lastIndex lastTerm offset : Nat) (data : Bytes) (total : Nat) (done : Bool)
    (config learners : Option (Finset N)) (now : Nanos) (entropy : Nat) : RaftCore N C S × List (Out N C) :=
  let c := c.hear leader
  if term < c.currentTerm then (c, [(leader, .installSnapshotResp c.currentTerm 0 0)])
  else
    let c := c.followLeader leader now entropy
    if c.installRedundant lastIndex then
      ({ c with incomingSnapshot := none }, [(leader, .installSnapshotResp c.currentTerm 0 0)])
    else
      let c := c.takeChunk lastIndex lastTerm offset data total
      let nextOffset := match c.incomingSnapshot with
        | some inc => inc.buf.length
        | none => 0
      match completedImage c.incomingSnapshot done with
      | some inc => c.completeInstall inc leader config learners
      | none => (c, [(leader, .installSnapshotResp c.currentTerm 0 nextOffset)])

variable (sender : N)

/-- The leader's side of a finished install. -/
def RaftCore.installAccepted (lastIndex : Nat) : RaftCore N C S × List (Out N C) :=
  let c := (c.forgetSnapshotTransfer sender).raiseMatch sender lastIndex
  let c := c.setNext sender (max (c.nextIndex[sender]?.getD 1) (lastIndex + 1))
  let c := (c.noteServed sender lastIndex).maybeAdvanceCommit.apply
  if c.departing[sender]?.any (fun d => decide (d.stamp.index ≤ c.peerMatch sender)) then
    (c.dropDeparting sender, [])
  else if c.nextIndex[sender]?.getD 1 ≤ c.lastLogIndex then c.replyTo sender .always
  else (c, [])

/-- The leader's side of a declined offer: the peer already holds the image of `base`. -/
def RaftCore.installDeclined (base : Nat) : RaftCore N C S × List (Out N C) :=
  let c := (c.forgetSnapshotTransfer sender).noteServed sender base
  let c := c.setNext sender (max (c.nextIndex[sender]?.getD 1) (c.snapshotIndex + 1))
  if c.nextIndex[sender]?.getD 1 ≤ c.lastLogIndex then c.replyTo sender .always else (c, [])

/-- The sender's record after the receiver reported `nextOffset`, and whether the report repeats
the chunk that was last sent. -/
def SnapshotSend.acknowledge (sent : SnapshotSend) (nextOffset : Nat) : SnapshotSend × Bool :=
  let tracked := sent.ackedOffset.getD 0
  let sent := { sent with ackedOffset := some tracked }
  if nextOffset = 0 ∧ 0 < tracked then (sent.restartFrom 0, false)
  else if nextOffset < tracked then
    let sent := { sent with regressions := sent.regressions + 1 }
    if snapshotOffsetRegressionRebase < sent.regressions then (sent.restartFrom nextOffset, false)
    else (sent, false)
  else
    let duplicate := decide (nextOffset = tracked) &&
      decide (sent.lastSent.map Prod.fst = some nextOffset)
    ({ sent with ackedOffset := some nextOffset, regressions := 0 }, duplicate)

def RaftCore.handleInstallSnapshotResp (term lastIndex : Nat)
    (nextOffset : Nat) (now : Nanos) : RaftCore N C S × List (Out N C) :=
  if c.role ≠ .leader ∨ term ≠ c.currentTerm then (c, [])
  else
    let c := c.noteDepartingReply sender now
    if 0 < lastIndex then c.installAccepted sender lastIndex
    else
      let tracked := c.snapshotSend[sender]?
      if nextOffset = 0 ∧ tracked.any (fun r => decide (r.lastSent.map Prod.fst = some 0)) then
        c.installDeclined sender ((tracked.map (·.offerBase)).getD 0)
      else if nextOffset = 0 ∧ tracked.isNone then (c, [])
      else
        let (acked, duplicate) := (tracked.getD {}).acknowledge nextOffset
        let c := { c with snapshotSend := c.snapshotSend.insert sender acked }
        if duplicate then (c, []) else c.replyTo sender (.capped snapshotAckResendCap)

def RaftCore.handleQuiesce (term commitIndex : Nat) : RaftCore N C S :=
  if term = c.currentTerm ∧ c.leaderId = some sender ∧ c.lastLogIndex = c.commitIndex ∧
      c.commitIndex = commitIndex then
    { c with quiesced := true }
  else c

def RaftCore.handleWakeRequest : RaftCore N C S × List (Out N C) :=
  if c.role ≠ .leader then (c, []) else c.replyTo sender .always

def RaftCore.handleRemoved (term : Nat) (removal : EntryStamp) (config learners : Finset N) :
    RaftCore N C S × List (Out N C) :=
  if term < c.currentTerm then (c, [(sender, .removedAck c.currentTerm 0)])
  else if c.role = .leader ∨ c.id ∈ config ∨ c.id ∈ learners then (c, [])
  else if c.latestSelfMembershipStamp.any (fun member => !EntryStamp.lt member removal) then (c, [])
  else
    let latest := match c.removedByLeader with
      | some r => if EntryStamp.lt removal r then r else removal
      | none => removal
    ({ c with role := .follower, leaderId := some sender, removedByLeader := some latest },
      [(sender, .removedAck c.currentTerm removal.2)])

def RaftCore.handleRemovedAck (term removalIndex : Nat) : RaftCore N C S :=
  if c.role ≠ .leader ∨ term ≠ c.currentTerm ∨ removalIndex = 0 then c
  else
    match c.departing[sender]? with
    | none => c
    | some d =>
      if removalIndex < d.stamp.index then c
      else
        let c := c.noteDepartingReply sender c.nowHint
        if c.nextIndex[sender]?.getD 1 ≤ c.snapshotIndex then c.dropDeparting sender
        else { c with departing := c.departing.modify sender (fun d => { d with quiet := true }) }

end Machine

end AnimusDb.Raft
