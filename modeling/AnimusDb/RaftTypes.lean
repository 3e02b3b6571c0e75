import AnimusDb.ConsensusLog

/-! The data of one Raft replica: log entries, wire messages, WAL records and the `RaftCore`
record. Node ids are any linearly ordered type, terms and indices are natural numbers, instants
and durations are nanosecond counts. The record is cut into the parts that the safety argument
reads (`Ledger`) and the WAL output (`WalState`), together `Vital`, and the bookkeeping that only
decides when and to whom something is sent. -/

namespace AnimusDb.Raft

/-- `BTreeMap` of the source. -/
abbrev BTreeMap (K V : Type) [LinearOrder K] := Std.TreeMap K V compare

/-- `Nanos`, and the nanoseconds of a `Duration`. -/
abbrev Nanos := Nat

abbrev Bytes := List UInt8

/-- The largest `u64`. -/
def u64Max : Nat := 2 ^ 64 - 1

def saturatingAdd (a b : Nat) : Nat := min (a + b) u64Max

def saturatingMul (a b : Nat) : Nat := min (a * b) u64Max

/-- `Duration::as_nanos() as u64`. -/
def asNanos (d : Nat) : Nat := d % 2 ^ 64

/-- The `StateMachine` trait, with the codec of its snapshot image (`format::wrap` around the
serialized state) as two operations. -/
class StateMachine (C S : Type) where
  default : S
  apply : S → C → S
  noop : C
  driverApplied : Bool
  encodeImage : S → Bytes
  decodeImage : Bytes → Option S

def snapshotChunkBytes : Nat := 64 * 1024
def maxAppendEntriesBatch : Nat := 512
def inflightRetransmitHeartbeats : Nat := 4
def inflightOverlapMaxEntries : Nat := 4
def sustainedHealthElectionTimeouts : Nat := 20
def snapshotAckResendCap : Nat := 8
def snapshotHeartbeatBackoffMaxTicks : Nat := 32
def snapshotOffsetRegressionRebase : Nat := 4
def departingNoticeGiveUp : Nanos := 300 * 10 ^ 9
def departingQuietGiveUp : Nanos := 30 * 10 ^ 9

/-- How eagerly a snapshot chunk is sent again. -/
inductive SnapshotResend where
  | capped (limit : Nat)
  | always
  | backoff
  deriving DecidableEq, Repr

/-- `EntryStamp`: a term and an index, compared lexicographically. -/
abbrev EntryStamp := Nat × Nat

/-- `a < b` on stamps, as the derived tuple order of the source. -/
def EntryStamp.lt (a b : EntryStamp) : Bool :=
  decide (a.1 < b.1) || (decide (a.1 = b.1) && decide (a.2 < b.2))

/-- The sender's record of one peer's snapshot transfer. -/
structure SnapshotSend where
  ackedOffset : Option Nat := none
  regressions : Nat := 0
  lastSent : Option (Nat × Nat) := none
  heartbeatAttempts : Nat × Nat := (0, 0)
  offerBase : Nat := 0

def SnapshotSend.restartFrom (sent : SnapshotSend) (offset : Nat) : SnapshotSend :=
  { sent with
    ackedOffset := some offset, regressions := 0, lastSent := none, heartbeatAttempts := (0, 0) }

/-- The entry that removed a peer. -/
structure Departing where
  index : Nat
  term : Nat

/-- A removed peer that the leader still serves. -/
structure DepartingPeer where
  stamp : Departing
  since : Option Nanos := none
  quiet : Bool := false
  sched : Option (Nanos × Nat) := none

inductive Role where
  | follower
  | preCandidate
  | candidate
  | leader
  deriving DecidableEq, Repr

variable (N C : Type)

/-- A log entry. A membership entry carries the voters, and the learners beside them. -/
structure LogEntry where
  term : Nat
  index : Nat
  command : C
  config : Option (Finset N)
  learners : Option (Finset N)

instance [DecidableEq N] [DecidableEq C] : DecidableEq (LogEntry N C) := fun a b =>
  decidable_of_iff (a.term = b.term ∧ a.index = b.index ∧ a.command = b.command ∧
      a.config = b.config ∧ a.learners = b.learners) (by
    cases a
    cases b
    simp only [LogEntry.mk.injEq])

inductive RaftMsg where
  | preVote (term : Nat) (candidate : N) (lastLogIndex lastLogTerm : Nat)
  | preVoteResp (term : Nat) (granted : Bool)
  | requestVote (term : Nat) (candidate : N) (lastLogIndex lastLogTerm : Nat)
  | requestVoteResp (term : Nat) (granted : Bool)
  | appendEntries (term : Nat) (leader : N) (prevLogIndex prevLogTerm : Nat)
      (entries : List (LogEntry N C)) (leaderCommit : Nat)
  | appendEntriesResp (term : Nat) (success : Bool) (matchIndex : Nat) (needsSnapshot : Bool)
      (checkPending : Bool) (appliedIndex : Nat)
  | installSnapshot (term : Nat) (leader : N) (lastIndex lastTerm : Nat) (offset : Nat)
      (data : Bytes) (total : Nat) (done : Bool) (config learners : Option (Finset N))
  | installSnapshotResp (term : Nat) (lastIndex nextOffset : Nat)
  | heartbeat (node : N)
  | timeoutNow (term : Nat)
  | quiesce (term : Nat) (commitIndex : Nat)
  | wakeRequest (term : Nat)
  | clusterProbe
  | clusterProbeResp (term : Nat) (committedIndex : Nat) (config : Finset N)
      (everHeardFromProber : Bool)
  | removed (term : Nat) (removalIndex removalTerm : Nat) (config learners : Finset N)
  | removedAck (term : Nat) (removalIndex : Nat)

/-- `Out`: a destination and a message. -/
abbrev Out := N × RaftMsg N C

/-- `ProposeResult`, without the `Busy` answer that only the drivers produce. -/
inductive ProposeResult where
  | accepted (index term : Nat)
  | notLeader (leader : Option N)

/-- A snapshot image being reassembled from its chunks. -/
structure IncomingSnapshot where
  lastIndex : Nat
  lastTerm : Nat
  total : Nat
  buf : Bytes
  deriving DecidableEq

/-- The boot-time cluster check. -/
inductive ClusterCheck where
  | idle
  | pending (awaiting : Finset N) (resendAt : Nanos) (sawEstablished : Bool)
  | refused

variable {N C}

def ClusterCheck.blocksVoting : ClusterCheck N → Bool
  | .idle => false
  | .pending _ _ _ => true
  | .refused => true

def RaftMsg.term : RaftMsg N C → Nat
  | .preVote term _ _ _ => term
  | .preVoteResp term _ => term
  | .requestVote term _ _ _ => term
  | .requestVoteResp term _ => term
  | .appendEntries term _ _ _ _ _ => term
  | .appendEntriesResp term _ _ _ _ _ => term
  | .installSnapshot term _ _ _ _ _ _ _ _ _ => term
  | .installSnapshotResp term _ _ => term
  | .timeoutNow term => term
  | .quiesce term _ => term
  | .removed term _ _ _ _ => term
  | .removedAck term _ => term
  | .heartbeat _ => 0
  | .wakeRequest _ => 0
  | .clusterProbe => 0
  | .clusterProbeResp _ _ _ _ => 0

variable (S : Type) (N C)

/-- `WalRecord` of `persist.rs`. -/
inductive WalRecord where
  | hard (term : Nat) (votedFor : Option N)
  | append (entry : LogEntry N C)
  | truncate (keep : Nat)
  | snapshot (metadata : S) (lastIndex lastTerm : Nat) (config learners : Option (Finset N))

/-- `PersistedState` of `persist.rs`. -/
structure PersistedState where
  term : Nat
  votedFor : Option N
  log : List (LogEntry N C)
  snapshot : Option (S × Nat × Nat)
  snapshotConfig : Option (Finset N)
  snapshotLearners : Option (Finset N)

variable [LinearOrder N]

/-- The membership part of a core. -/
structure Membership where
  id : N
  peers : List N
  clusterSize : Nat
  config : Finset N
  initialConfig : Finset N
  snapshotConfig : Option (Finset N)
  learners : Finset N
  initialLearners : Finset N
  snapshotLearners : Option (Finset N)

/-- Term, vote, log, snapshot base and progress counters. `panicked` records that an unchecked
index or subtraction of the source went out of range. -/
structure Ledger extends Membership N where
  role : Role
  currentTerm : Nat
  votedFor : Option N
  log : List (LogEntry N C)
  snapshotIndex : Nat
  snapshotTerm : Nat
  commitIndex : Nat
  lastApplied : Nat
  durableIndex : Nat
  votes : Finset N
  matchIndex : BTreeMap N Nat
  firstTermIndex : Nat
  incomingSnapshot : Option IncomingSnapshot
  pendingApply : List (Nat × Nat × C)
  panicked : Bool

/-- The state machine and what the core owes its WAL. -/
structure WalState where
  metadata : S
  applied : List C
  pending : List (WalRecord N C S)
  persistedHard : Nat × Option N
  snapshotDirty : Bool
  walRecordsInstall : Bool
  installRewriteOwed : Bool

/-- Snapshot images and the flags that gate campaigning. -/
structure Engine where
  snapshotBlob : Option Bytes
  snapshotChunkBytes : Nat
  pendingInstall : Option (Nat × Bytes)
  snapshotNeeded : Bool
  stateMachineBehind : Bool
  storageFull : Bool
  lastInstalledIndex : Option Nat
  clusterCheck : ClusterCheck N
  removedByLeader : Option EntryStamp
  localApplied : Nat
  logOmitsBase : Bool

/-- What the core remembers of its peers. -/
structure PeerState where
  leaderId : Option N
  preVotes : Finset N
  heardFrom : Finset N
  nextIndex : BTreeMap N Nat
  inflightSent : BTreeMap N (Nat × Nanos)
  snapshotServedThrough : BTreeMap N Nat
  peerCheckPending : BTreeMap N Bool
  peerRecoveredAt : BTreeMap N Nanos
  lastContact : BTreeMap N Nanos
  transferTarget : Option N
  transferDeadline : Nanos
  departing : BTreeMap N DepartingPeer
  snapshotSend : BTreeMap N SnapshotSend

/-- Deadlines, leases and quiescence. -/
structure Timers where
  voteLeaseLapsed : Bool
  leaseGraceUntil : Nanos
  nowHint : Nanos
  electionBase : Nanos
  heartbeatInterval : Nanos
  electionDeadline : Nanos
  heartbeatDeadline : Nanos
  lagStretch : Nanos
  campaignHold : Option Nanos
  quiesceAfter : Option Nanos
  quiesced : Bool
  lastActivity : Nanos
  quiesceEngineCaughtUp : Bool
  quiesceVeto : Bool
  quiesceVetoFreshThrough : Nat

/-- What a crash or another replica can depend on. -/
structure Vital extends Ledger N C, WalState N C S

/-- One replica's consensus core. -/
structure RaftCore extends Vital N C S, Engine N, PeerState N, Timers

end AnimusDb.Raft
