import AnimusDb.RaftReplicate

/-! Elections: pre-votes, votes, the step to leader, the boot-time cluster check that keeps a
replica without durable state from voting, and the tick that drives them. -/

open QuorumSets

namespace AnimusDb.Raft

variable {N C S : Type} [LinearOrder N]

def Engine.cannotVoteYet (c : Engine N) : Bool := c.clusterCheck.blocksVoting || c.storageFull

variable (c : RaftCore N C S) (now : Nanos) (entropy : Nat) (sender : N) (term : Nat) (candidate : N)

def RaftCore.armLeaseGrace : RaftCore N C S :=
  if c.role = .leader then { c with leaseGraceUntil := saturatingAdd now c.stretchedBase } else c

/-- Leaving quiescence on activity. -/
def RaftCore.wake : RaftCore N C S :=
  { c with quiesced := false, lastActivity := now }

/-- A message from `node` that only an established replica sends was received. -/
def RaftCore.hear (node : N) : RaftCore N C S :=
  { c with heardFrom := insert node c.heardFrom }

def RaftCore.leaderLease : Bool :=
  if c.role ≠ .leader then false
  else if c.quiesced || decide (now < c.leaseGraceUntil) then true
  else
    let recent := (c.peers.filter (fun p =>
      c.lastContact[p]?.any (fun at_ => decide (now - at_ ≤ c.stretchedBase)))).length +
        (if c.isVoter then 1 else 0)
    decide (c.majority ≤ recent)

def RaftCore.liveLeader : Bool :=
  if c.role = .leader then true else c.leaderId.isSome && decide (now < c.electionDeadline)

/-- Whether a candidate's log is at least as up to date as this core's. -/
def Ledger.logOk (c : Ledger N C) (lastLogIndex lastLogTerm : Nat) : Bool :=
  decide (c.lastLogTerm < lastLogTerm) ||
    (decide (lastLogTerm = c.lastLogTerm) && decide (c.lastLogIndex ≤ lastLogIndex))

def RaftCore.nextClusterCheckResend : Nanos :=
  c.randomizedDeadline now entropy

def RaftCore.broadcastClusterProbe : List (Out N C) :=
  c.peers.map fun p => (p, .clusterProbe)

def RaftCore.beginClusterCheck : RaftCore N C S × List (Out N C) :=
  match c.clusterCheck with
  | .refused => (c, [])
  | _ =>
    if c.peers.isEmpty then ({ c with clusterCheck := .idle }, [])
    else
      let c := c.resetElectionTimer now entropy
      let check := .pending c.peers.toFinset (c.nextClusterCheckResend now entropy) false
      ({ c with clusterCheck := check }, c.broadcastClusterProbe)

def RaftCore.handleClusterProbe : List (Out N C) :=
  [(sender, .clusterProbeResp c.currentTerm c.commitIndex c.config (decide (sender ∈ c.heardFrom)))]

/-- What `handle_cluster_probe_resp` makes of one answer while the check is pending. -/
def ClusterCheck.answer (id : N) (awaiting : Finset N) (resendAt : Nanos) (sawEstablished : Bool)
    (sender : N) (term committedIndex : Nat) (config : Finset N) (everHeardFromProber : Bool) : ClusterCheck N :=
  if term = 0 ∧ committedIndex = 0 then .idle
  else if id ∉ config then .idle
  else
    let sawEstablished := sawEstablished || everHeardFromProber
    let awaiting := awaiting.erase sender
    if awaiting = ∅ then (if sawEstablished then .refused else .idle)
    else .pending awaiting resendAt sawEstablished

def RaftCore.handleClusterProbeResp (committedIndex : Nat) (config : Finset N) (everHeardFromProber : Bool) :
    RaftCore N C S :=
  match c.clusterCheck with
  | .pending awaiting resendAt sawEstablished =>
    { c with clusterCheck := ClusterCheck.answer c.id awaiting resendAt sawEstablished sender term
               committedIndex config everHeardFromProber }
  | _ => c

def RaftCore.campaignDue : Bool :=
  decide (c.role ≠ .leader) && decide (c.electionDeadline ≤ now) && !c.clusterCheck.blocksVoting &&
    c.isVoter && !c.stateMachineBehind && !c.storageFull && decide (1 < c.majority)

/-- A step to a term seen in a message: no vote, no leader, no candidacy. -/
def RaftCore.adoptTerm : RaftCore N C S :=
  { c with
    currentTerm := term, votedFor := none, voteLeaseLapsed := false, role := .follower, leaderId := none }

variable [StateMachine C S]

/-- The fresh progress that `become_leader` gives a peer or learner. -/
def RaftCore.initPeerProgress (last : Nat) (now : Nanos) (c : RaftCore N C S) (p : N) : RaftCore N C S :=
  { c with
    nextIndex := c.nextIndex.insert p (last + 1), matchIndex := c.matchIndex.insert p 0
    lastContact := c.lastContact.insert p now }

/-- The progress that `become_leader` gives a peer that its log has removed. -/
def RaftCore.initDepartingPeer (last : Nat) (c : RaftCore N C S) (entry : N × Departing) : RaftCore N C S :=
  if c.peers.contains entry.1 || decide (entry.1 ∈ c.learners) then c
  else
    { c with
      nextIndex := c.nextIndex.insert entry.1 (last + 1), matchIndex := c.matchIndex.insert entry.1 0
      departing := c.departing.insert entry.1 { stamp := entry.2, quiet := true } }

/-- The first assignments of `become_leader`. -/
def RaftCore.takeRole : RaftCore N C S :=
  { c with
    role := .leader, inflightSent := ∅, campaignHold := none, leaderId := some c.id, quiesced := false,
    lastActivity := now
    peerCheckPending := ∅, peerRecoveredAt := ∅ }

/-- The progress tables of `become_leader`: its members, then the peers that its log removed. -/
def RaftCore.initProgress (last : Nat) (now : Nanos) : RaftCore N C S :=
  let c := (c.peers ++ ascending c.learners).foldl (RaftCore.initPeerProgress last now) c
  let c := { c with departing := ∅ }
  c.removalsInLog.toList.foldl (RaftCore.initDepartingPeer last) c

/-- `become_leader` up to the append of its no-op entry. -/
def RaftCore.assumeLeadership : RaftCore N C S :=
  let last := c.lastLogIndex
  let c := (c.takeRole now).initProgress last now
  { c with transferTarget := none, snapshotSend := ∅, firstTermIndex := last + 1 }

/-- The entry that a leader appends in its first act. -/
def noopEntry (S : Type) [StateMachine C S] (term index : Nat) : LogEntry N C where
  term := term
  index := index
  command := StateMachine.noop S
  config := none
  learners := none

namespace RaftCore

/-- `become_leader` up to its commit check: the no-op entry of the new term is appended. -/
def appendNoop : RaftCore N C S :=
  let last := c.lastLogIndex
  let c := c.assumeLeadership now
  c.logAppend (noopEntry S c.currentTerm (last + 1))

/-- The heartbeat that is now being sent moves the next one. -/
def armHeartbeat : RaftCore N C S :=
  { c with heartbeatDeadline := saturatingAdd now c.heartbeatNanos }

def becomeLeader : RaftCore N C S × List (Out N C) :=
  (((c.appendNoop now).maybeAdvanceCommit.apply).armHeartbeat now).broadcastAppend .always

/-- The candidacy of `start_election`: a new term with a vote for itself. -/
def becomeCandidate : RaftCore N C S :=
  resetElectionTimer { c with
      role := .candidate, currentTerm := c.currentTerm + 1, votedFor := some c.id, voteLeaseLapsed := false,
      leaderId := none
      votes := {c.id} } now entropy

def startElection : RaftCore N C S × List (Out N C) :=
  if c.clusterCheck.blocksVoting then (c.resetElectionTimer now entropy, [])
  else if !c.isVoter || c.stateMachineBehind || c.storageFull then
    (c.resetElectionTimer now entropy, [])
  else
    let c := c.becomeCandidate now entropy
    if c.majority ≤ c.votes.card then c.becomeLeader now
    else
      (c, c.peers.map fun p => (p, .requestVote c.currentTerm c.id c.lastLogIndex c.lastLogTerm))

/-- The role of `start_pre_vote`. -/
def becomePreCandidate : RaftCore N C S :=
  resetElectionTimer { c with role := .preCandidate, leaderId := none, preVotes := {c.id} } now entropy

def startPreVote : RaftCore N C S × List (Out N C) :=
  match c.clusterCheck with
  | .refused => (c.resetElectionTimer now entropy, [])
  | .pending _ _ _ =>
    let c := c.resetElectionTimer now entropy
    (c, c.broadcastClusterProbe)
  | .idle =>
    if !c.isVoter || c.stateMachineBehind || c.storageFull then
      let c := if !c.isVoter then { c with leaderId := none, voteLeaseLapsed := true } else c
      (c.resetElectionTimer now entropy, [])
    else
      let c := c.becomePreCandidate now entropy
      if c.majority ≤ c.preVotes.card then c.startElection now entropy
      else
        (c, c.peers.map fun p =>
          (p, .preVote (c.currentTerm + 1) c.id c.lastLogIndex c.lastLogTerm))

def handleTimeoutNow (now : Nanos) (entropy : Nat) : RaftCore N C S × List (Out N C) :=
  if term ≠ c.currentTerm ∨ c.role = .leader ∨ c.isVoter = false then (c, [])
  else c.startElection now entropy

/-- The verdict of `handle_pre_vote`. -/
def preVoteGranted (lastLogIndex lastLogTerm : Nat) (now : Nanos) : Bool :=
  let votedLease := (decide (c.role = .follower) || decide (c.role = .candidate)) &&
    c.votedFor.isSome && decide (now < c.electionDeadline) && !c.voteLeaseLapsed
  let clusterChecked := match c.clusterCheck with
    | .idle => true
    | .refused => false
    | .pending _ _ _ => decide (lastLogIndex = 0) && decide (lastLogTerm = 0)
  !(c.liveLeader now || votedLease) && decide (c.currentTerm ≤ term) && c.logOk lastLogIndex lastLogTerm &&
    clusterChecked

/-- A candidate that grants a pre-vote concedes its candidacy. -/
def concede : RaftCore N C S :=
  if c.role = .candidate then { c with role := .follower, votes := ∅ } else c

def handlePreVote (term lastLogIndex lastLogTerm : Nat) (now : Nanos) : RaftCore N C S × List (Out N C) :=
  let granted := c.preVoteGranted term lastLogIndex lastLogTerm now
  let c := if granted then c.concede else c
  (c, [(candidate, .preVoteResp (if granted then term else c.currentTerm) granted)])

def handlePreVoteResp (granted : Bool) (now : Nanos) (entropy : Nat) : RaftCore N C S × List (Out N C) :=
  if c.role ≠ .preCandidate then (c, [])
  else if granted && c.campaignHold.isSome then (c, [])
  else if granted then
    if term = c.currentTerm + 1 ∧ sender ∈ c.config then
      let c := { c with preVotes := insert sender c.preVotes }
      if c.majority ≤ c.preVotes.card then c.startElection now entropy else (c, [])
    else (c, [])
  else if c.currentTerm < term then
    let c := c.adoptTerm term
    let c := { c with preVotes := ∅ }
    (c.resetElectionTimer now entropy, [])
  else (c, [])

/-- Whether `handle_request_vote` grants. -/
def voteGranted (term lastLogIndex lastLogTerm : Nat) : Bool :=
  decide (c.currentTerm ≤ term) && (c.votedFor.isNone || decide (c.votedFor = some candidate)) &&
    c.logOk lastLogIndex lastLogTerm && !c.clusterCheck.blocksVoting

/-- The vote that `handle_request_vote` records. -/
def castVote (now : Nanos) (entropy : Nat) : RaftCore N C S :=
  resetElectionTimer { c with votedFor := some candidate, voteLeaseLapsed := false } now entropy

def handleRequestVote (term lastLogIndex lastLogTerm : Nat) (now : Nanos) (entropy : Nat) :
    RaftCore N C S × List (Out N C) :=
  let c := c.hear candidate
  let granted := c.voteGranted candidate term lastLogIndex lastLogTerm
  let c := if granted then c.castVote candidate now entropy else c
  (c, [(candidate, .requestVoteResp c.currentTerm granted)])

/-- A granted vote is counted. -/
def countVote : RaftCore N C S :=
  { c with votes := insert sender c.votes }

def handleVoteResp (granted : Bool) (now : Nanos) : RaftCore N C S × List (Out N C) :=
  let c := if granted then c.hear sender else c
  if c.role ≠ .candidate ∨ term ≠ c.currentTerm then (c, [])
  else if granted && decide (sender ∈ c.config) then
    let c := c.countVote sender
    if c.majority ≤ c.votes.card then c.becomeLeader now else (c, [])
  else (c, [])

def quiesceEntryOk : Bool :=
  match c.quiesceAfter with
  | none => false
  | some quiesceAfter =>
    let last := c.lastLogIndex
    decide (asNanos quiesceAfter ≤ now - c.lastActivity) && decide (c.commitIndex = last) &&
      decide (c.firstTermIndex ≤ c.commitIndex) &&
      (c.peers ++ ascending c.learners).all (fun p => decide (c.peerMatch p = last)) &&
      c.transferTarget.isNone && c.departing.isEmpty && !c.configChangeInFlight &&
      c.incomingSnapshot.isNone && c.pendingInstall.isNone && !c.snapshotNeeded &&
      c.quiesceEngineCaughtUp && !c.quiesceVeto &&
      decide (c.commitIndex ≤ c.quiesceVetoFreshThrough)

def broadcastQuiesce : List (Out N C) :=
  (c.peers ++ ascending c.learners).map fun p => (p, .quiesce c.currentTerm c.commitIndex)

/-- The cluster-check part of `tick_gated`: a due probe is sent again. -/
def tickClusterCheck : RaftCore N C S × List (Out N C) :=
  match c.clusterCheck with
  | .pending awaiting resendAt sawEstablished =>
    if resendAt ≤ now then
      ({ c with clusterCheck :=
          .pending awaiting (c.nextClusterCheckResend now entropy) sawEstablished },
        c.broadcastClusterProbe)
    else (c, [])
  | _ => (c, [])

/-- A due heartbeat of the leader: it quiesces the group or sends to every peer. -/
def beat : RaftCore N C S × List (Out N C) :=
  let c := c.expireStaleDeparting now
  if !c.quiesced && c.quiesceEntryOk now then ({ c with quiesced := true }, c.broadcastQuiesce)
  else (c.armHeartbeat now).broadcastAppend .backoff

/-- The leader's part of `tick_gated`; `none` when the heartbeat is not due. -/
def tickLeader : RaftCore N C S × Option (List (Out N C)) :=
  let c := if c.transferTarget.isSome && decide (c.transferDeadline ≤ now) then
      { c with transferTarget := none } else c
  if c.heartbeatDeadline ≤ now then
    let (c, outs) := c.beat now
    (c, some outs)
  else (c, none)

/-- `tick_gated`. What the role's part returns replaces the probes collected before it. -/
def tickGated (admitted : Bool) : RaftCore N C S × List (Out N C) :=
  let c := { c with nowHint := now }
  let (c, probes) := c.tickClusterCheck now entropy
  if c.role = .leader then
    match c.tickLeader now with
    | (c, some outs) => (c, outs)
    | (c, none) => (c, probes)
  else if c.electionDeadline ≤ now then
    if !admitted && c.campaignDue now then
      ({ c with campaignHold := some (saturatingAdd now (asNanos c.electionBase)) }, [])
    else c.startPreVote now entropy
  else (c, probes)

def tick : RaftCore N C S × List (Out N C) :=
  c.tickGated now entropy true

end RaftCore

end AnimusDb.Raft
