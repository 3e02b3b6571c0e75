import AnimusDb.RaftOps

/-! A group of cores with their drivers. Each replica has its core, the WAL records that are
synced, and the messages that wait for the next sync; the network keeps every message that was
ever sent, so a delivery picks any of them, in any order and any number of times. A crash recovers
the core from the replay of the synced records. -/

open QuorumSets

namespace AnimusDb.Raft

inductive Op (N C : Type) where
  | tick (now : Nanos) (entropy : Nat) (admitted : Bool)
  | handle (sender : N) (msg : RaftMsg N C) (now : Nanos) (entropy : Nat)
  | propose (command : C)
  | changeMembership (voters : Finset N)
  | addLearner (id : N)
  | promoteLearner (id : N)
  | removeLearner (id : N)
  | transferLeadership (target : N) (now : Nanos)
  | snapshotUpto (index : Nat)
  | set (setting : Setting)
  | setTiming (electionBase heartbeatInterval : Nanos) (now : Nanos) (entropy : Nat)
  | noteLocalActivity (now : Nanos)
  | onLocalWake (now : Nanos) (entropy : Nat)
  | replicateNow (now : Nanos)
  | campaignNow (now : Nanos) (entropy : Nat)
  | beginClusterCheck (now : Nanos) (entropy : Nat)

variable {N C S : Type} [LinearOrder N] [StateMachine C S]

/-- An operation's effect on the core and the messages it produces. -/
def RaftCore.perform (c : RaftCore N C S) : Op N C → RaftCore N C S × List (Out N C)
  | .tick now entropy admitted => c.tickGated now entropy admitted
  | .handle sender msg now entropy => c.handle sender msg now entropy
  | .propose command => ((c.propose command).1, [])
  | .changeMembership voters => ((c.changeMembership voters).1, [])
  | .addLearner id => ((c.addLearner id).1, [])
  | .promoteLearner id => ((c.promoteLearner id).1, [])
  | .removeLearner id => ((c.removeLearner id).1, [])
  | .transferLeadership target now => ((c.transferLeadership target now).1, [])
  | .snapshotUpto index => (c.snapshotUpto index, [])
  | .set setting => (c.set setting, [])
  | .setTiming electionBase heartbeatInterval now entropy =>
    (c.setTiming electionBase heartbeatInterval now entropy, [])
  | .noteLocalActivity now => (c.noteLocalActivity now, [])
  | .onLocalWake now entropy => c.onLocalWake now entropy
  | .replicateNow now => c.replicateNow now
  | .campaignNow now entropy => c.campaignNow now entropy
  | .beginClusterCheck now entropy => c.beginClusterCheck now entropy

variable (N C S) in
/-- A message in flight. `held` is the log of the sender when it produced the message. -/
structure Packet where
  src : N
  dst : N
  msg : RaftMsg N C
  held : List (LogEntry N C)

variable (N C S) in
/-- One replica: its core, its synced WAL records, whether a compaction obliges the driver to
rewrite the WAL at the next drain, and the messages that wait for that drain to be synced. -/
structure Replica where
  core : RaftCore N C S
  wal : List (WalRecord N C S)
  rewriteOwed : Bool
  outbox : List (Packet N C)

/-- The messages of one operation, as packets of its core. -/
def RaftCore.packets (c : RaftCore N C S) (outs : List (Out N C)) : List (Packet N C) :=
  outs.map fun o => { src := c.id, dst := o.1, msg := o.2, held := c.log }

/-- Whether the operation left the WAL behind a compaction: `snapshot_upto` moved the base, or an
installed snapshot was not recorded. -/
def rewriteNeeded (before after : RaftCore N C S) : Op N C → Bool
  | .snapshotUpto _ => decide (before.snapshotIndex ≠ after.snapshotIndex)
  | _ => after.installRewriteOwed

/-- An operation of a replica: its messages wait in the outbox. -/
def Replica.perform (r : Replica N C S) (op : Op N C) : Replica N C S :=
  let result := r.core.perform op
  { r with
    core := result.1, rewriteOwed := r.rewriteOwed || rewriteNeeded r.core result.1 op
    outbox := r.outbox ++ result.1.packets result.2 }

/-- A persist round: drain the core and append the records, or rewrite the WAL by the core's image.
The outbox is empty afterwards. -/
def Replica.persist (r : Replica N C S) (rewrite : Bool) : Replica N C S :=
  let (core, records) := r.core.drainPersist
  if rewrite then
    { core := core.takeSnapshotDirty.1, wal := core.walImage, rewriteOwed := false, outbox := [] }
  else { core := core, wal := r.wal ++ records, rewriteOwed := r.rewriteOwed, outbox := [] }

/-- The synced records cover the log through `index`. -/
def Replica.Covers (r : Replica N C S) (index : Nat) : Prop :=
  index ≤ r.core.lastLogIndex ∧ ∀ e ∈ r.core.log, e.index ≤ index → e ∈ (PersistedState.replay r.wal).log

instance [DecidableEq C] (r : Replica N C S) (index : Nat) : Decidable (r.Covers index) :=
  inferInstanceAs (Decidable (_ ∧ _))

/-- How a group was started: the voters that every core was created with, each named once, and
whether an installed snapshot is recorded in the WAL. -/
structure Bootstrap (N : Type) where
  allNodes : List N
  nodup : allNodes.Nodup
  walRecordsInstall : Bool

/-- A core as a driver creates it. -/
def Bootstrap.fresh (boot : Bootstrap N) (id : N) (now : Nanos) (entropy : Nat) : RaftCore N C S :=
  { RaftCore.new id boot.allNodes now entropy with walRecordsInstall := boot.walRecordsInstall }

/-- A core as a driver recovers it. -/
def Bootstrap.recover (boot : Bootstrap N) (id : N) (wal : List (WalRecord N C S)) (now : Nanos)
    (entropy : Nat) : RaftCore N C S :=
  { RaftCore.recovered id boot.allNodes (PersistedState.replay wal) now entropy with
    walRecordsInstall := boot.walRecordsInstall }

/-- The loss of everything that was not synced. -/
def Replica.crash (boot : Bootstrap N) (r : Replica N C S) (now : Nanos) (entropy : Nat) : Replica N C S where
  core := boot.recover r.core.id r.wal now entropy
  wal := r.wal
  rewriteOwed := false
  outbox := []

variable (N C S : Type) [LinearOrder N] [StateMachine C S]

/-- All replicas, every message ever sent, and every triple that some `drain_apply` returned. -/
structure Group where
  replica : N → Replica N C S
  net : List (Packet N C)
  drained : List (Nat × Nat × C)

/-- What happens next in a group. -/
inductive Event where
  | act (node : N) (op : Op N C)
  | deliver (position : Nat) (now : Nanos) (entropy : Nat)
  | drainApply (node : N)
  | sync (node : N) (rewrite : Bool)
  | markDurable (node : N) (index : Nat)
  | crash (node : N) (now : Nanos) (entropy : Nat)

variable {N C S} [DecidableEq C]

def Group.start (boot : Bootstrap N) (clock : N → Nanos × Nat) : Group N C S where
  replica n :=
    { core := boot.fresh n (clock n).1 (clock n).2, wal := [], rewriteOwed := false, outbox := [] }
  net := []
  drained := []

def Group.put (g : Group N C S) (node : N) (r : Replica N C S) : Group N C S :=
  { g with replica := Function.update g.replica node r }

/-- One event; `none` when the drivers do not allow it. A local operation is not a delivery, a
compacted WAL is rewritten at the next drain, and only covered indices are marked durable. -/
def Group.step (boot : Bootstrap N) (g : Group N C S) : Event N C → Option (Group N C S)
  | .act _ (.handle _ _ _ _) => none
  | .act node op => some (g.put node ((g.replica node).perform op))
  | .deliver position now entropy => do
      let p ← g.net[position]?
      some (g.put p.dst ((g.replica p.dst).perform (.handle p.src p.msg now entropy)))
  | .drainApply node =>
    let r := g.replica node
    let (core, triples) := r.core.drainApply
    some { g.put node { r with core := core } with drained := g.drained ++ triples }
  | .sync node rewrite =>
    let r := g.replica node
    if r.rewriteOwed && !rewrite then none
    else some { g.put node (r.persist rewrite) with net := g.net ++ r.outbox }
  | .markDurable node index =>
    let r := g.replica node
    if r.Covers index then some (g.put node { r with core := r.core.markDurableThrough index })
    else none
  | .crash node now entropy => some (g.put node ((g.replica node).crash boot now entropy))

def Group.run (boot : Bootstrap N) : Group N C S → List (Event N C) → Option (Group N C S)
  | g, [] => some g
  | g, ev :: rest => do
      let g ← g.step boot ev
      Group.run boot g rest

/-- Every event of a run meets a condition in the state in which it happens. -/
def Group.RunMeets (boot : Bootstrap N) (cond : Group N C S → Event N C → Prop) :
    Group N C S → List (Event N C) → Prop
  | _, [] => True
  | g, ev :: rest =>
    cond g ev ∧ match g.step boot ev with
      | some g => Group.RunMeets boot cond g rest
      | none => True

instance Group.decidableRunMeets (boot : Bootstrap N) (cond : Group N C S → Event N C → Prop)
    [∀ g ev, Decidable (cond g ev)] :
    (g : Group N C S) → (evs : List (Event N C)) → Decidable (Group.RunMeets boot cond g evs)
  | _, [] => .isTrue trivial
  | g, ev :: rest =>
    have : Decidable (match g.step boot ev with
        | some g => Group.RunMeets boot cond g rest
        | none => True) :=
      match g.step boot ev with
      | some g => Group.decidableRunMeets boot cond g rest
      | none => .isTrue trivial
    instDecidableAnd

variable {boot : Bootstrap N}

/-- What every event that meets the condition preserves, a run that meets it preserves. -/
theorem Group.run_preserves (cond : Group N C S → Event N C → Prop) {P : Group N C S → Prop}
    (hstep : ∀ g ev g', P g → cond g ev → g.step boot ev = some g' → P g') {evs : List (Event N C)}
    {g g' : Group N C S} (hP : P g) (hmeets : g.RunMeets boot cond evs) (hrun : g.run boot evs = some g') :
      P g' := by
  induction evs generalizing g with
  | nil =>
    cases hrun
    exact hP
  | cons ev rest ih =>
    simp only [Group.run, Option.bind_eq_bind, Option.bind_eq_some_iff] at hrun
    obtain ⟨h, hev, hrest⟩ := hrun
    obtain ⟨hcond, hmeets⟩ := hmeets
    rw [hev] at hmeets
    exact ih (hstep g ev h hP hcond hev) hmeets hrest

theorem Group.runMeets_of_forall {cond : Group N C S → Event N C → Prop}
    (hcond : ∀ g ev, cond g ev) (g : Group N C S) (evs : List (Event N C)) : g.RunMeets boot cond evs := by
  induction evs generalizing g with
  | nil => trivial
  | cons ev rest ih =>
    refine ⟨hcond g ev, ?_⟩
    split
    · exact ih _
    · trivial

theorem Group.run_append (g : Group N C S) (evs more : List (Event N C)) :
    g.run boot (evs ++ more) = (g.run boot evs).bind fun g => g.run boot more := by
  induction evs generalizing g with
  | nil => rfl
  | cons ev rest ih =>
    simp only [List.cons_append, Group.run, Option.bind_eq_bind, Option.bind_assoc, ih]

/-- The commands of the concrete runs. -/
inductive Command where
  | noop
  | write (value : Nat)
  deriving DecidableEq

/-- A driver-applied state machine: its engine lives outside the core. -/
instance : StateMachine Command Unit where
  default := ()
  apply _ _ := ()
  noop := .noop
  driverApplied := true
  encodeImage _ := []
  decodeImage _ := some ()

/-- The clock of the concrete runs: every core is created at the same instant. -/
def zeroClock : Nat → Nanos × Nat := fun _ => (0, 0)

/-- An instant at which every election timeout of a new core has passed. -/
def late : Nanos := 10 ^ 9

def solo : Bootstrap Nat where
  allNodes := [0]
  nodup := by decide
  walRecordsInstall := true

def duo : Bootstrap Nat where
  allNodes := [0, 1]
  nodup := by decide
  walRecordsInstall := true

/-- Replica 0 of two voters is elected, writes, and has both entries acknowledged by replica 1,
whose WAL is synced; it commits them and compacts the first one away. Replica 1, whose state
machine is now behind, is offered the image of the first entry. -/
def offerRun : List (Event Nat Command) :=
  [.act 0 (.tick late 0 true), .sync 0 false, .deliver 0 late 0, .sync 1 false, .deliver 1 late 0,
    .sync 0 false, .deliver 2 late 0, .sync 1 false, .deliver 3 late 0,
    .act 0 (.propose (.write 7)), .sync 0 false, .markDurable 0 2, .act 0 (.replicateNow late),
    .sync 0 false, .deliver 5 late 0, .sync 1 false, .markDurable 1 2, .deliver 6 late 0,
    .act 0 (.snapshotUpto 1), .act 0 (.set (.snapshotBlob [1, 2, 3])),
    .act 1 (.set (.stateMachineBehind true)), .act 0 (.replicateNow late), .sync 0 true,
    .deliver 4 late 0, .sync 1 false, .deliver 8 late 0, .sync 0 false]

/-- Replica 0 of two voters leads term 1 and commits two entries without marking them durable, so it
applies none. It hands its leadership to replica 1, which compacts the first entry away and offers
replica 0, whose state machine is behind, the image of it. -/
def handoverRun : List (Event Nat Command) :=
  [.act 0 (.tick late 0 true), .sync 0 false, .deliver 0 late 0, .sync 1 false, .deliver 1 late 0,
    .sync 0 false, .deliver 2 late 0, .sync 1 false, .deliver 3 late 0,
    .act 0 (.propose (.write 7)), .sync 0 false, .act 0 (.replicateNow late), .sync 0 false,
    .deliver 5 late 0, .sync 1 false, .deliver 6 late 0, .act 0 (.replicateNow late), .sync 0 false,
    .deliver 7 late 0, .sync 1 false, .deliver 8 late 0, .act 0 (.transferLeadership 1 late),
    .act 0 (.tick (late + 10 ^ 8) 0 true), .sync 0 false, .deliver 10 (late + 10 ^ 8) 0,
    .sync 1 false, .deliver 11 (late + 10 ^ 8) 0, .sync 0 false, .deliver 12 (late + 10 ^ 8) 0,
    .act 1 (.snapshotUpto 1), .act 1 (.set (.snapshotBlob [1, 2, 3])), .sync 1 true,
    .act 0 (.set (.stateMachineBehind true)), .deliver 13 (late + 10 ^ 8) 0, .sync 0 false,
    .deliver 14 (late + 10 ^ 8) 0, .sync 1 false]

end AnimusDb.Raft
