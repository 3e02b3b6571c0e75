import AnimusDb.GroupSim

/-! Election safety. Replicas that never compact their logs never install an image, so a run
without compaction follows the protocol throughout; leaders of one term are then one replica. -/

open QuorumSets LogConsensus List Option

namespace AnimusDb.Raft

variable {N C S : Type} [LinearOrder N] [StateMachine C S]

/-- A message that carries a chunk of an image. -/
def RaftMsg.isImage : RaftMsg N C → Bool
  | .installSnapshot _ _ _ _ _ _ _ _ _ _ => true
  | _ => false

/-- Without images and compaction, a core keeps the base zero and sends no image. -/
theorem Move.bare {In : N → RaftMsg N C → Prop} {G : SnapshotRules N C S} {c d : Vital N C S}
    {sent : List (Out N C)} (hcompact : ¬ G.compact) (hin : ∀ s m, In s m → m.isImage = false)
    (hbase : c.snapshotIndex = 0) (hmove : Move In G c d sent) :
      d.snapshotIndex = 0 ∧ ∀ o ∈ sent, o.2.isImage = false := by
  cases hmove with
  | emit o hemits =>
    refine ⟨hbase, fun x hx => ?_⟩
    rw [mem_singleton.mp hx]
    obtain ⟨dst, msg⟩ := o
    cases msg with
    | installSnapshot =>
      obtain ⟨_, hpos, _⟩ := hemits
      omega
    | _ => rfl
  | lead | append =>
    rw [Vital.pushEntry_eq]
    exact ⟨hbase, by simp⟩
  | apply =>
    obtain ⟨_, _, _, _, _, heq⟩ := c.apply_eq
    rw [heq]
    exact ⟨hbase, by simp⟩
  | accept _ _ prev _ entries leaderCommit =>
    obtain ⟨_, _, _, _, _, _, _, _, heq⟩ := Vital.foldl_appendStep_eq entries c prev
    obtain ⟨_, _, _, _, _, _, heq'⟩ := Vital.followCommit_eq (entries.foldl Vital.appendStep (c, prev)).1
      leaderCommit (entries.foldl Vital.appendStep (c, prev)).2
    rw [heq', heq]
    exact ⟨hbase, fun o ho => by rw [mem_singleton.mp ho]; rfl⟩
  | ackBase => exact ⟨hbase, fun o ho => by rw [mem_singleton.mp ho]; rfl⟩
  | chunk _ _ _ _ _ _ _ _ _ _ hmsg => exact absurd (hin _ _ hmsg) (by simp [RaftMsg.isImage])
  | install _ _ _ _ _ _ _ _ _ _ _ _ hmsg =>
    exact absurd (hin _ _ hmsg) (by simp [RaftMsg.isImage])
  | compact _ _ _ hrules => exact absurd hrules hcompact
  | _ => exact ⟨hbase, by simp⟩

variable {g : Group N C S}

variable [DecidableEq C]

/-- The event compacts a log. -/
def Event.compacts : Event N C → Bool
  | .act _ (.snapshotUpto _) => true
  | _ => false

/-- A replica that has never compacted. -/
structure Replica.Bare (r : Replica N C S) : Prop where
  base : r.core.snapshotIndex = 0
  wal : (PersistedState.replay r.wal).snapshot = none
  outbox : ∀ p ∈ r.outbox, p.msg.isImage = false

/-- A group that has never compacted. -/
structure Group.Bare (g : Group N C S) : Prop where
  replicas : ∀ n, (g.replica n).Bare
  net : ∀ p ∈ g.net, p.msg.isImage = false

omit [DecidableEq C] in
theorem Replica.Bare.perform {r : Replica N C S} (h : r.Bare) {op : Op N C}
    (hmeets : r.core.SnapshotsMeet noCompaction op) (hin : ∀ s m, op.Reads s m → m.isImage = false) :
    (r.perform op).Bare := by
  obtain ⟨hbase, hsent⟩ := Moves.preserves (P := fun v => v.snapshotIndex = 0)
    (Q := fun o => o.2.isImage = false) (fun _ _ _ hP hmove => hmove.bare id hin hP)
    (r.core.perform_moves op hmeets) h.base
  refine ⟨hbase, h.wal, fun p hp => ?_⟩
  rcases mem_append.mp hp with hp | hp
  · exact h.outbox p hp
  · obtain ⟨o, ho, rfl⟩ := mem_map.mp hp
    exact hsent o ho

variable {boot : Bootstrap N}

theorem Group.Bare.step {g' : Group N C S} {ev : Event N C} (h : g.Bare)
    (hkept : g.Kept boot) (hev : ev.compacts = false) (hstep : g.step boot ev = some g') : g'.Bare := by
  refine ⟨Group.step_replicas hstep h.replicas fun node _ _ hturn => ?_,
    Group.step_net hstep h.net fun n => (h.replicas n).outbox⟩
  have hr := h.replicas node
  cases hturn with
  | @act _ op hlocal =>
    refine hr.perform ?_ fun s m hreads => (hlocal s m hreads).elim
    cases op with
    | handle sender msg now entropy => exact (hlocal _ _ ⟨now, entropy, rfl⟩).elim
    | snapshotUpto => cases hev
    | _ => trivial
  | deliver hp =>
    refine hr.perform ?_ fun s m hreads => ?_
    · unfold RaftCore.SnapshotsMeet RaftCore.InstallMeets
      dsimp only
      split
      · exact fun _ _ => trivial
      · trivial
    · obtain ⟨_, _, heq⟩ := hreads
      cases heq
      exact h.net _ (mem_of_getElem? hp)
  | drainApply => exact ⟨hr.base, hr.wal, hr.outbox⟩
  | @sync _ rewrite hallowed =>
    obtain ⟨_, _, _, hcore, -⟩ := (g.replica node).persist_core rewrite
    have hbase : ((g.replica node).persist rewrite).core.snapshotIndex = 0 := by
      rw [hcore]
      exact hr.base
    have hwal := ((hkept.replicas node).persist_synced rewrite hallowed).mirrors.base
    rw [if_pos hbase, map_eq_none_iff] at hwal
    refine ⟨hbase, hwal, fun p hp => ?_⟩
    unfold Replica.persist at hp
    dsimp only at hp
    split at hp <;> cases hp
  | markDurable =>
    obtain ⟨_, _, _, _, _, heq⟩ := (g.replica node).core.toVital.markDurableThrough_eq _
    have hvital : ((g.replica node).core.markDurableThrough _).toVital = _ := heq
    exact ⟨by rw [hvital]; exact hr.base, hr.wal, hr.outbox⟩
  | crash now entropy =>
    refine ⟨?_, hr.wal, fun p hp => by cases hp⟩
    have hbase := (boot.recover_mirrors (g.replica node).core.id (g.replica node).wal now entropy
      (hkept.replicas node).stored).base_eq
    unfold PersistedState.base at hbase
    rw [hr.wal] at hbase
    exact hbase.symm

omit [DecidableEq C] in
theorem Group.Bare.start (boot : Bootstrap N) (clock : N → Nanos × Nat) :
    (Group.start boot clock : Group N C S).Bare where
  replicas _ := ⟨rfl, rfl, fun p hp => by cases hp⟩
  net p hp := by cases hp

omit [DecidableEq C] in
theorem Group.Bare.keepsLog (h : g.Bare) (ev : Event N C) : g.KeepsLog ev := by
  unfold Group.KeepsLog
  cases hdelivery : g.delivery ev with
  | none => rfl
  | some p =>
    have hmem : p ∈ g.net := by
      cases ev with
      | deliver => exact mem_of_getElem? hdelivery
      | _ => cases hdelivery
    have hmsg := h.net p hmem
    rw [all_some]
    unfold RaftCore.installKeepsLog
    split
    · rename_i heq
      rw [heq] at hmsg
      cases hmsg
    · rfl

theorem Group.Bare.runMeets (h : g.Bare) (hkept : g.Kept boot)
    {evs : List (Event N C)} (hevs : ∀ ev ∈ evs, ev.compacts = false) :
    g.RunMeets boot Group.KeepsLog evs := by
  induction evs generalizing g with
  | nil => trivial
  | cons ev rest ih =>
    refine ⟨h.keepsLog ev, ?_⟩
    split
    · rename_i g' hstep
      exact ih (h.step hkept (hevs ev mem_cons_self) hstep) (hkept.step hstep) fun x hx =>
        hevs x (mem_cons_of_mem _ hx)
    · trivial

omit [DecidableEq C] in
/-- In a group in step with the protocol, the leaders of one term are one replica. -/
theorem Group.Follows.leader_unique {a : State N (LogEntry N C)}
    (h : g.Follows boot a) {n v : N} (hn : (g.replica n).core.role = .leader)
    (hv : (g.replica v).core.role = .leader)
    (hterm : (g.replica n).core.currentTerm = (g.replica v).core.currentTerm) : n = v := by
  obtain ⟨a₁, hrun₁, hsim₁, -⟩ := h.replicas n
  obtain ⟨a₂, hrun₂, hsim₂, -⟩ := h.replicas v
  refine hrun₁.leader_unique h.reachable hrun₂ (hsim₁.leading hn) (hsim₂.leading hv) ?_
  rw [← hsim₁.term, ← hsim₂.term]
  exact hterm

/-- In every run without compaction, no two replicas lead the same term. -/
theorem election_safety (boot : Bootstrap N) (clock : N → Nanos × Nat) (evs : List (Event N C))
    (g : Group N C S) (hevs : ∀ ev ∈ evs, ev.compacts = false)
    (hrun : (Group.start boot clock).run boot evs = some g) (n v : N)
    (hn : (g.replica n).core.role = .leader) (hv : (g.replica v).core.role = .leader)
    (hterm : (g.replica n).core.currentTerm = (g.replica v).core.currentTerm) : n = v := by
  have hmeets := (Group.Bare.start boot clock : (Group.start boot clock : Group N C S).Bare).runMeets
    (Group.Kept.start boot clock) hevs
  obtain ⟨a, -, hfollows⟩ := (Group.Follows.start boot clock).run hmeets hrun
  exact hfollows.leader_unique hn hv hterm

theorem election_safety_elected :
    ∃ g : Group Nat Command Unit, (Group.start duo zeroClock).run duo (offerRun.take 18) = some g ∧
      (g.replica 0).core.role = .leader ∧ ∀ v, (g.replica v).core.role = .leader →
        (g.replica v).core.currentTerm = (g.replica 0).core.currentTerm → v = 0 := by
  have hevs : ∀ ev ∈ offerRun.take 18, ev.compacts = false := by decide
  obtain ⟨g, hg, hleader⟩ : ∃ g : Group Nat Command Unit, g ∈ (Group.start duo zeroClock).run duo
      (offerRun.take 18) ∧ (g.replica 0).core.role = .leader := by decide +kernel
  exact ⟨g, hg, hleader, fun v hv hterm =>
    election_safety duo zeroClock (offerRun.take 18) g hevs hg v 0 hv hleader hterm⟩

end AnimusDb.Raft
