import AnimusDb.RaftHandlers

/-! The public operations of a core: `handle`, proposals, membership changes, leadership transfer
and the driver's settings. -/

open QuorumSets

namespace AnimusDb.Raft

variable {N C S : Type} [LinearOrder N] (c : RaftCore N C S)

def RaftCore.healthyFollowers (now : Nanos) : List N :=
  if c.role ≠ .leader then []
  else
    let window := asNanos c.electionBase
    (ascending c.config).filter (fun n =>
      decide (n ≠ c.id) && decide (c.peerCheckPending[n]? = some false) &&
        c.lastContact[n]?.any (fun at_ => decide (now - at_ ≤ window)) &&
        c.peerRecoveredAt[n]?.all (fun at_ => decide (window * sustainedHealthElectionTimeouts ≤ now - at_)))

def RaftCore.transferLeadership (target : N) (now : Nanos) : RaftCore N C S × Bool :=
  if c.role ≠ .leader ∨ target = c.id ∨ target ∉ c.config ∨ c.configChangeInFlight = true ∨
      c.peerMatch target < c.commitIndex then (c, false)
  else if c.peerCheckPending[target]? = some true then (c, false)
  else if c.storageFull && decide ((c.healthyFollowers now).length < c.majority) then (c, false)
  else
    let c := if c.transferTarget ≠ some target then
        { c with
          transferTarget := some target, transferDeadline := saturatingAdd now (asNanos c.electionBase) }
      else c
    let c := if c.quiesced then c.armLeaseGrace now else c
    (c.wake now, true)

/-- The driver's settings: calls that replace one field of the core. -/
inductive Setting where
  | logOmitsBase (omits : Bool)
  | snapshotChunkBytes (bytes : Nat)
  | snapshotBlob (bytes : Bytes)
  | stateMachineBehind (behind : Bool)
  | storageFull (full : Bool)
  | localApplied (applied : Nat)
  | lagStretch (stretch : Nanos)
  | enableQuiescence (after : Nanos)
  | quiesceEngineCaughtUp (caughtUp : Bool)
  | quiesceVeto (veto : Bool) (freshThrough : Nat)
  | takeSnapshotNeeded
  | drainPendingInstall

/-- The effect of a setting. -/
def RaftCore.set : Setting → RaftCore N C S
  | .logOmitsBase omits => { c with logOmitsBase := omits }
  | .snapshotChunkBytes bytes => { c with snapshotChunkBytes := max bytes 1 }
  | .snapshotBlob bytes => { c with snapshotBlob := some bytes }
  | .stateMachineBehind behind => { c with stateMachineBehind := behind }
  | .storageFull full => { c with storageFull := full }
  | .localApplied applied => { c with localApplied := applied }
  | .lagStretch stretch => { c with lagStretch := stretch }
  | .enableQuiescence after => { c with quiesceAfter := some after }
  | .quiesceEngineCaughtUp caughtUp => { c with quiesceEngineCaughtUp := caughtUp }
  | .quiesceVeto veto freshThrough =>
    { c with quiesceVeto := veto, quiesceVetoFreshThrough := freshThrough }
  | .takeSnapshotNeeded => { c with snapshotNeeded := false }
  | .drainPendingInstall => { c with pendingInstall := none }

def RaftCore.setTiming (electionBase heartbeatInterval : Nanos) (now : Nanos) (entropy : Nat) : RaftCore N C S :=
  if electionBase = 0 ∨ heartbeatInterval = 0 ∨
      (c.electionBase = electionBase ∧ c.heartbeatInterval = heartbeatInterval) then c
  else
    let c := { c with electionBase := electionBase, heartbeatInterval := heartbeatInterval }
    if c.role = .leader then
      let next := saturatingAdd now c.heartbeatNanos
      if next < c.heartbeatDeadline then { c with heartbeatDeadline := next } else c
    else c.resetElectionTimer now entropy

def RaftCore.noteLocalActivity (now : Nanos) : RaftCore N C S :=
  (if c.quiesced then c.armLeaseGrace now else c).wake now

def RaftCore.onLocalWake (now : Nanos) (entropy : Nat) : RaftCore N C S × List (Out N C) :=
  if !c.quiesced || decide (c.role = .leader) then (c, [])
  else
    let c := (c.wake now).resetElectionTimer now entropy
    match c.leaderId with
    | some leader => (c, [(leader, .wakeRequest c.currentTerm)])
    | none => (c, [])

section Machine

variable [StateMachine C S]

namespace RaftCore

variable (c : RaftCore N C S)

def replicateNow (now : Nanos) : RaftCore N C S × List (Out N C) :=
  let c := { c with nowHint := now }
  if c.role = .leader then (c.armHeartbeat now).broadcastAppend (.capped 0) else (c, [])

def campaignNow (now : Nanos) (entropy : Nat) : RaftCore N C S × List (Out N C) :=
  if c.role ≠ .follower then (c, []) else c.startPreVote now entropy

/-- The append of a leader's new entry: it is appended, counted and applied. -/
def appendOwn (command : C) (config learners : Option (Finset N)) : RaftCore N C S × ProposeResult N :=
  let entry : LogEntry N C :=
    { term := c.currentTerm, index := c.lastLogIndex + 1, command := command, config := config,
      learners := learners }
  let c := (c.logAppend entry).maybeAdvanceCommit.apply
  (c, .accepted entry.index c.currentTerm)

def propose (command : C) : RaftCore N C S × ProposeResult N :=
  if c.role ≠ .leader then (c, .notLeader c.leaderId)
  else
    match c.transferTarget with
    | some target => (c, .notLeader (some target))
    | none => c.appendOwn command none none

def appendMembershipEntry (voters learners : Finset N) : RaftCore N C S × ProposeResult N :=
  c.appendOwn (StateMachine.noop S) (some voters) (some learners)

def changeMembership (voters : Finset N) : RaftCore N C S × ProposeResult N :=
  if c.role ≠ .leader then (c, .notLeader c.leaderId)
  else
    match c.transferTarget with
    | some target => (c, .notLeader (some target))
    | none =>
      if c.commitIndex < c.firstTermIndex then (c, .notLeader (some c.id))
      else if (symmDiff c.config voters).card ≠ 1 ∨ c.configChangeInFlight = true ∨
          c.id ∉ voters ∨ ¬ Disjoint voters c.learners then (c, .notLeader (some c.id))
      else c.appendMembershipEntry voters c.learners

def learnerChangePrecheck : Option (ProposeResult N) :=
  if c.role ≠ .leader then some (.notLeader c.leaderId)
  else
    match c.transferTarget with
    | some target => some (.notLeader (some target))
    | none =>
      if c.commitIndex < c.firstTermIndex ∨ c.configChangeInFlight = true then
        some (.notLeader (some c.id))
      else none

def addLearner (id : N) : RaftCore N C S × ProposeResult N :=
  match c.learnerChangePrecheck with
  | some rejected => (c, rejected)
  | none =>
    if id = c.id ∨ id ∈ c.config ∨ id ∈ c.learners then (c, .notLeader (some c.id))
    else c.appendMembershipEntry c.config (insert id c.learners)

def promoteLearner (id : N) : RaftCore N C S × ProposeResult N :=
  match c.learnerChangePrecheck with
  | some rejected => (c, rejected)
  | none =>
    if id ∉ c.learners then (c, .notLeader (some c.id))
    else c.appendMembershipEntry (insert id c.config) (c.learners.erase id)

def removeLearner (id : N) : RaftCore N C S × ProposeResult N :=
  match c.learnerChangePrecheck with
  | some rejected => (c, rejected)
  | none =>
    if id ∉ c.learners then (c, .notLeader (some c.id))
    else c.appendMembershipEntry c.config (c.learners.erase id)

/-- `handle`'s first gate: a leader with a live lease ignores a vote request of a later term. -/
def leaseIgnores (now : Nanos) : RaftMsg N C → Option N
  | .requestVote term candidate _ _ =>
    if c.currentTerm < term ∧ c.leaderLease now = true ∧ c.transferTarget ≠ some candidate then
      some candidate
    else none
  | _ => none

end RaftCore

/-- Whether a message is one of the two pre-vote messages, which do not carry a term to adopt. -/
def RaftMsg.isPreVote : RaftMsg N C → Bool
  | .preVote _ _ _ _ => true
  | .preVoteResp _ _ => true
  | _ => false

variable (c : RaftCore N C S)

/-- The step-down of `handle` on a message of a later term. -/
def RaftCore.stepDownFor (msg : RaftMsg N C) : RaftCore N C S :=
  if !msg.isPreVote && decide (c.currentTerm < msg.term) then
    { c.adoptTerm msg.term with transferTarget := none, snapshotSend := ∅ }
  else c

/-- A quiesced leader's answer to a repeated acknowledgement does not by itself end quiescence. -/
def RaftCore.quiescedAck (sender : N) : RaftMsg N C → Bool
  | .appendEntriesResp term success matchIndex needsSnapshot checkPending _ =>
    c.quiesced && decide (c.role = .leader) && success && !needsSnapshot && !checkPending &&
      decide (term = c.currentTerm) && decide (matchIndex ≤ c.peerMatch sender)
  | _ => false

/-- A quiesced follower's receipt of a bare heartbeat that tells it nothing new. -/
def RaftCore.quiescedHeartbeat : RaftMsg N C → Bool
  | .appendEntries term leader prevLogIndex _ entries leaderCommit =>
    c.quiesced && decide (c.role = .follower) && decide (term = c.currentTerm) &&
      decide (c.leaderId = some leader) && entries.isEmpty &&
      decide (prevLogIndex = c.lastLogIndex) && decide (leaderCommit ≤ c.commitIndex) &&
      decide (c.lastLogIndex = c.commitIndex)
  | _ => false

/-- Whether a message is a plain positive acknowledgement. -/
def RaftMsg.isCleanAck : RaftMsg N C → Bool
  | .appendEntriesResp _ success _ needsSnapshot _ _ => success && !needsSnapshot
  | _ => false

/-- The dispatch of `handle`. -/
def RaftCore.dispatch (sender : N) (msg : RaftMsg N C) (now : Nanos) (entropy : Nat) :
    RaftCore N C S × List (Out N C) :=
  match msg with
  | .preVote term candidate lastLogIndex lastLogTerm =>
    let notice := c.strangerNotice candidate
    let (c, out) := c.handlePreVote candidate term lastLogIndex lastLogTerm now
    (c, out ++ notice.toList)
  | .preVoteResp term granted => c.handlePreVoteResp sender term granted now entropy
  | .requestVote term candidate lastLogIndex lastLogTerm =>
    let notice := c.strangerNotice candidate
    let (c, out) := c.handleRequestVote candidate term lastLogIndex lastLogTerm now entropy
    (c, out ++ notice.toList)
  | .requestVoteResp term granted => c.handleVoteResp sender term granted now
  | .appendEntries term leader prevLogIndex prevLogTerm entries leaderCommit =>
    c.handleAppendEntries term leader prevLogIndex prevLogTerm entries leaderCommit now entropy
  | .appendEntriesResp term success matchIndex needsSnapshot checkPending _ =>
    c.handleAppendResp sender term success matchIndex needsSnapshot checkPending now
  | .installSnapshot term leader lastIndex lastTerm offset data total done config learners =>
    c.handleInstallSnapshot term leader lastIndex lastTerm offset data total done config learners now entropy
  | .installSnapshotResp term lastIndex nextOffset =>
    c.handleInstallSnapshotResp sender term lastIndex nextOffset now
  | .heartbeat _ => (c, [])
  | .timeoutNow term => c.handleTimeoutNow term now entropy
  | .clusterProbe => (c, c.handleClusterProbe sender)
  | .clusterProbeResp term committedIndex config everHeardFromProber =>
    (c.handleClusterProbeResp sender term committedIndex config everHeardFromProber, [])
  | .quiesce term commitIndex => (c.handleQuiesce sender term commitIndex, [])
  | .wakeRequest _ => c.handleWakeRequest sender
  | .removed term removalIndex removalTerm config learners =>
    c.handleRemoved sender term (removalTerm, removalIndex) config learners
  | .removedAck term removalIndex => (c.handleRemovedAck sender term removalIndex, [])

/-- Leaving quiescence, with the lease grace that a leader gets. -/
def RaftCore.unquiesce (now : Nanos) : RaftCore N C S :=
  if c.quiesced then (c.wake now).armLeaseGrace now else c

/-- `handle` after its gates: the quiesced shortcuts, then the dispatch. -/
def RaftCore.handleAwake (sender : N) (msg : RaftMsg N C) (now : Nanos) (entropy : Nat) :
    RaftCore N C S × List (Out N C) :=
  if c.quiescedAck sender msg then
    let (c, out) := c.dispatch sender msg now entropy
    (if out.isEmpty then c else (c.wake now).armLeaseGrace now, out)
  else if c.quiescedHeartbeat msg then
    let (c, out) := c.dispatch sender msg now entropy
    let cleanAck := out.all fun o => o.2.isCleanAck
    (if !cleanAck || decide (c.lastLogIndex ≠ c.commitIndex) then c.wake now else c, out)
  else (c.unquiesce now).dispatch sender msg now entropy

def RaftCore.handle (sender : N) (msg : RaftMsg N C) (now : Nanos) (entropy : Nat) :
    RaftCore N C S × List (Out N C) :=
  let c := { c with nowHint := now }
  match c.leaseIgnores now msg with
  | some candidate =>
    let c := c.hear candidate
    (c.unquiesce now, (c.strangerNotice candidate).toList)
  | none => (c.stepDownFor msg).handleAwake sender msg now entropy

end Machine

end AnimusDb.Raft
