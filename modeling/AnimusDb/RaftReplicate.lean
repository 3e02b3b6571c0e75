import AnimusDb.RaftPersist

/-! What a leader sends to one peer: an `AppendEntries` batch, a chunk of its snapshot image, or a
removal notice to a departing peer, with the pacing of each. -/

open QuorumSets

namespace AnimusDb.Raft

variable {N C S : Type} [LinearOrder N]

def Timers.heartbeatNanos (t : Timers) : Nat := asNanos t.heartbeatInterval

/-- `u32::saturating_add(1)`. -/
def saturatingSucc32 (a : Nat) : Nat := min (a + 1) (2 ^ 32 - 1)

def isPowerOfTwo (n : Nat) : Bool := decide (n ≠ 0) && decide (2 ^ Nat.log2 n = n)

def RaftCore.noteDepartingReply (c : RaftCore N C S) (peer : N) (now : Nanos) : RaftCore N C S :=
  match c.departing[peer]? with
  | some d => { c with departing := c.departing.insert peer { d with since := some now, sched := none } }
  | none => c

def RaftCore.departingSendGate (c : RaftCore N C S) (peer : N) : RaftCore N C S × Bool :=
  match c.departing[peer]? with
  | none => (c, true)
  | some d =>
    let (nextAt, attempts) := d.sched.getD (0, 0)
    if c.nowHint < nextAt then (c, false)
    else
      let capShift := Nat.log2 snapshotHeartbeatBackoffMaxTicks
      let gap := saturatingMul c.heartbeatNanos (2 ^ min attempts capShift)
      let sched := (saturatingAdd c.nowHint gap, saturatingSucc32 attempts)
      ({ c with departing := c.departing.insert peer { d with sched := some sched } }, true)

variable (c : Ledger N C)

def Ledger.removalNoticeFor (peer : N) (dep : Departing) : Option (RaftMsg N C) :=
  if c.commitIndex < dep.index ∨ peer ∈ c.config ∨ peer ∈ c.learners then none
  else some (.removed c.currentTerm dep.index dep.term c.config c.learners)

/-- One entry of the scan of `removals_in_log`: previous voters, previous learners, removals. -/
def removalsStep (acc : Finset N × Finset N × BTreeMap N Departing) (e : LogEntry N C) :
    Finset N × Finset N × BTreeMap N Departing :=
  match e.config with
  | none => acc
  | some voters =>
    let (prevVoters, prevLearners, out) := acc
    let learners := e.learners.getD prevLearners
    let out := (ascending prevVoters).foldl (fun out n =>
      if n ∉ voters ∧ n ∉ learners then out.insert n ⟨e.index, e.term⟩ else out) out
    let out := out.filter (fun n _ => n ∉ voters && n ∉ learners)
    (voters, learners, out)

def Ledger.removalsInLog : BTreeMap N Departing :=
  let start : Finset N × Finset N × BTreeMap N Departing :=
    (c.snapshotConfig.getD c.initialConfig, c.snapshotLearners.getD c.initialLearners, ∅)
  (c.log.foldl removalsStep start).2.2.erase c.id

def Ledger.latestConfigStamp : Option Departing :=
  match c.log.reverse.find? (fun e => e.config.isSome) with
  | some e => some ⟨e.index, e.term⟩
  | none => if 0 < c.snapshotIndex then some ⟨c.snapshotIndex, c.snapshotTerm⟩ else none

def Ledger.strangerNotice (candidate : N) : Option (Out N C) :=
  if c.role ≠ .leader ∨ candidate = c.id ∨ candidate ∈ c.config ∨ candidate ∈ c.learners then none
  else do
    let dep ← (c.removalsInLog[candidate]?).or c.latestConfigStamp
    let notice ← c.removalNoticeFor candidate dep
    some (candidate, notice)

variable [StateMachine C S] (c : RaftCore N C S)

def RaftCore.expireStaleDeparting (now : Nanos) : RaftCore N C S :=
  if c.departing.isEmpty then c
  else
    let c := { c with
      departing := c.departing.map (fun _ (d : DepartingPeer) =>
        { d with since := some (d.since.getD now) }) }
    let stale := (c.departing.toList.filter (fun entry =>
      let bound := if entry.2.quiet then departingQuietGiveUp else departingNoticeGiveUp
      decide (bound ≤ now - entry.2.since.getD now))).map Prod.fst
    stale.foldl RaftCore.dropDeparting c

/-- The heartbeat backoff of `snapshot_chunk_for`: whether this tick sends the chunk at `offset`,
and the peer's record with the attempt counted. -/
def SnapshotSend.backoffAttempt (sent : SnapshotSend) (offset : Nat) : SnapshotSend × Bool :=
  let attempts := if sent.heartbeatAttempts.1 = offset then sent.heartbeatAttempts else (offset, 0)
  let n := attempts.2
  let pastCeilingMultiple := decide (n ≠ 0) && decide (n % snapshotHeartbeatBackoffMaxTicks = 0)
  let preCeilingDoubling := decide (n < snapshotHeartbeatBackoffMaxTicks) && isPowerOfTwo n
  ({ sent with heartbeatAttempts := (attempts.1, saturatingSucc32 n) },
    decide (n = 0) || preCeilingDoubling || pastCeilingMultiple)

/-- The chunk of the image `serialized` at `offset` that `snapshot_chunk_for` sends. -/
def RaftCore.chunkMsg (serialized : Bytes) (offset : Nat) : RaftMsg N C :=
  let finish := min (offset + c.snapshotChunkBytes) serialized.length
  .installSnapshot c.currentTerm c.id c.snapshotIndex c.snapshotTerm offset
    ((serialized.drop offset).take (finish - offset)) serialized.length
    (decide (finish = serialized.length)) c.snapshotConfig c.snapshotLearners

def RaftCore.snapshotChunkFor (peer : N) (resend : SnapshotResend) : RaftCore N C S × Option (Out N C) :=
  match c.snapshotBlob with
  | none => ({ c with snapshotNeeded := true }, none)
  | some serialized =>
    let total := serialized.length
    let tracked := c.snapshotSend[peer]?
    let offset := min ((tracked.bind (·.ackedOffset)).getD 0) total
    let resendsSoFar :=
      match tracked.bind (·.lastSent) with
      | some (lastOffset, resends) => if lastOffset = offset then resends else 0
      | none => 0
    let overLimit := match resend with
      | .capped limit => decide (limit < resendsSoFar)
      | _ => false
    if overLimit then (c, none)
    else
      let (c, due) :=
        if resend = .backoff then
          let (counted, due) := (tracked.getD {}).backoffAttempt offset
          ({ c with snapshotSend := c.snapshotSend.insert peer counted }, due)
        else (c, true)
      if !due then (c, none)
      else
        let sent : SnapshotSend := { c.snapshotSend[peer]?.getD {} with
          lastSent := some (offset, saturatingSucc32 resendsSoFar)
          offerBase := c.snapshotIndex }
        ({ c with snapshotSend := c.snapshotSend.insert peer sent }, some (peer, c.chunkMsg serialized offset))

/-- The batch that `replicate_to` sends from `next` on; `empty` withholds the entries. -/
def Ledger.appendMsg (c : Ledger N C) (next : Nat) (empty : Bool) : RaftMsg N C :=
  .appendEntries c.currentTerm c.id (next - 1) (c.termAt (next - 1))
    (if empty then [] else (c.log.filter (fun e => decide (next ≤ e.index))).take maxAppendEntriesBatch)
    c.commitIndex

/-- What the in-flight window of `replicate_to` allows: `none` withholds the message, `some true`
sends it without entries. -/
def RaftCore.inflightGate (peer : N) (next : Nat) (resend : SnapshotResend) : Option Bool :=
  match c.inflightSent[peer]? with
  | none => some false
  | some (sent, at_) =>
    if next ≤ sent ∧ inflightOverlapMaxEntries ≤ sent + 1 - next then
      if resend ≠ .backoff then none
      else
        some (decide (c.nowHint - at_ < saturatingMul c.heartbeatNanos inflightRetransmitHeartbeats))
    else some false

/-- The last index of the entries in a batch. -/
def RaftMsg.lastEntryIndex : RaftMsg N C → Option Nat
  | .appendEntries _ _ _ _ entries _ => entries.getLast?.map (·.index)
  | _ => none

def RaftCore.replicateTo (peer : N) (resend : SnapshotResend) : RaftCore N C S × Option (Out N C) :=
  let (c, admitted) := c.departingSendGate peer
  if !admitted then (c, none)
  else
    let next := max (c.nextIndex[peer]?.getD 1) 1
    if c.logOmitsBase && decide (c.snapshotIndex = 0) && decide (peer ∈ c.learners) then
      (if 0 < c.lastApplied then { c with snapshotNeeded := true } else c, none)
    else if next ≤ c.snapshotIndex then
      match c.departing[peer]? with
      | some d =>
        let c := c.forgetSnapshotTransfer peer
        (c, (c.removalNoticeFor peer d.stamp).map fun m => (peer, m))
      | none => c.snapshotChunkFor peer resend
    else
      match c.inflightGate peer next resend with
      | none => (c, none)
      | some empty =>
        let msg := c.appendMsg next empty
        let c := match msg.lastEntryIndex with
          | some l => { c with inflightSent := c.inflightSent.insert peer (l, c.nowHint) }
          | none => c
        (c, some (peer, msg))

/-- `replicate_to` over a list of peers, collecting what it sends. -/
def RaftCore.replicateAll (resend : SnapshotResend) :
    RaftCore N C S → List N → RaftCore N C S × List (Out N C)
  | c, [] => (c, [])
  | c, peer :: rest =>
    let (c, sent) := c.replicateTo peer resend
    let (c, outs) := RaftCore.replicateAll resend c rest
    (c, sent.toList ++ outs)

def RaftCore.broadcastAppend (resend : SnapshotResend) : RaftCore N C S × List (Out N C) :=
  let targets := c.peers ++ ascending c.learners ++ c.departing.keys
  let (c, outs) := RaftCore.replicateAll resend c targets
  let handover := match c.transferTarget with
    | some target =>
      if c.peerMatch target = c.lastLogIndex then [(target, .timeoutNow c.currentTerm)] else []
    | none => []
  (c, outs ++ handover)

end AnimusDb.Raft
