import AnimusDb.RaftWal

/-! The WAL of every replica of a group, along every run: what is synced replays to a well-formed
state, and after each persist round it replays to the core itself. -/

open QuorumSets LogConsensus List Option

namespace AnimusDb.Raft

open PersistedState

variable {N C S : Type} [LinearOrder N] {state : PersistedState N C S}

section Recovery

/-- The shape of a persisted state that a core can be recovered from. -/
structure Stored (state : PersistedState N C S) : Prop where
  contiguous : Contiguous state.base state.log
  paired : ∀ e ∈ state.log, e.Paired
  bare : state.snapshot = none → state.snapshotConfig = none ∧ state.snapshotLearners = none
  based : ∀ metadata lastIndex lastTerm, state.snapshot = some (metadata, lastIndex, lastTerm) →
    0 < lastIndex ∧ state.snapshotConfig.isSome = true ∧ state.snapshotLearners.isSome = true

theorem Mirrors.stored {c : Vital N C S} (h : Mirrors state c) (hshaped : Shaped c) : Stored state where
  contiguous := by
    rw [h.base_eq, h.log]
    exact hshaped.contiguous
  paired := by
    rw [h.log]
    exact hshaped.paired
  bare hnone := by
    have hbase := h.base
    rw [hnone] at hbase
    have hzero : c.snapshotIndex = 0 := by
      by_contra hne
      rw [if_neg hne] at hbase
      cases hbase
    obtain ⟨_, hconfig, hlearners⟩ := hshaped.bare hzero
    rw [h.config, h.learners]
    exact ⟨hconfig, hlearners⟩
  based metadata lastIndex lastTerm hsome := by
    have hbase := h.base_eq
    have hmap := h.base
    rw [PersistedState.base, hsome] at hbase
    dsimp only at hbase
    rw [hsome] at hmap
    have hpos : 0 < c.snapshotIndex := by
      rw [Nat.pos_iff_ne_zero]
      intro hzero
      rw [if_pos hzero] at hmap
      cases hmap
    rw [h.config, h.learners, hbase]
    exact ⟨hpos, hshaped.based hpos⟩

omit [LinearOrder N] in
theorem Stored.empty : Stored (PersistedState.empty : PersistedState N C S) where
  contiguous := Contiguous.nil _
  paired := by simp [PersistedState.empty]
  bare _ := ⟨rfl, rfl⟩
  based _ _ _ h := by cases h

variable [StateMachine C S]

namespace RaftCore

variable (id : N) (allNodes : List N) (now : Nanos) (entropy : Nat)

/-- What `recovered` loads from the persisted state before it recomputes the configuration. -/
theorem loaded_mirrors (h : Stored state) : Mirrors state (loaded id allNodes state now entropy).toVital := by
  unfold loaded
  cases hsnapshot : state.snapshot with
  | none => exact ⟨rfl, by rw [hsnapshot]; rfl, rfl, rfl⟩
  | some base =>
    obtain ⟨metadata, lastIndex, lastTerm⟩ := base
    obtain ⟨hpos, _⟩ := h.based metadata lastIndex lastTerm hsnapshot
    refine ⟨rfl, ?_, rfl, rfl⟩
    change state.snapshot.map Prod.snd =
      if lastIndex = 0 then none else some (lastIndex, lastTerm)
    rw [hsnapshot, if_neg (by omega)]
    rfl

theorem loaded_shaped (h : Stored state) :
    Shaped (loaded id allNodes state now entropy).toVital.recomputeConfig := by
  have hmirrors := loaded_mirrors id allNodes now entropy h
  have hbase := hmirrors.base_eq
  refine Shaped.recomputeConfig ?_ ?_ ?_ ?_ ?_
  · rw [← hbase, ← hmirrors.log]
    exact h.contiguous
  · rw [← hmirrors.log]
    exact h.paired
  · unfold loaded
    cases hsnapshot : state.snapshot with
    | none => exact fun _ => ⟨rfl, h.bare hsnapshot⟩
    | some base =>
      obtain ⟨metadata, lastIndex, lastTerm⟩ := base
      intro hzero
      have hpos := (h.based metadata lastIndex lastTerm hsnapshot).1
      change lastIndex = 0 at hzero
      omega
  · unfold loaded
    cases hsnapshot : state.snapshot with
    | none => exact fun hpos => absurd hpos (lt_irrefl 0)
    | some base =>
      obtain ⟨metadata, lastIndex, lastTerm⟩ := base
      exact fun _ => (h.based metadata lastIndex lastTerm hsnapshot).2
  · unfold loaded
    cases state.snapshot <;> exact fun inc hinc => by cases hinc

/-- What does not depend on the persisted snapshot in a loaded core. -/
theorem loaded_eq (state : PersistedState N C S) : (loaded id allNodes state now entropy).currentTerm =
      state.term ∧ (loaded id allNodes state now entropy).votedFor = state.votedFor ∧
      (loaded id allNodes state now entropy).toVital.identity = (id, allNodes.toFinset, ∅, false) ∧
      (loaded id allNodes state now entropy).installRewriteOwed = false ∧
      (loaded id allNodes state now entropy).role = .follower := by
  unfold loaded
  cases state.snapshot <;> exact ⟨rfl, rfl, rfl, rfl, rfl⟩

end RaftCore

variable (boot : Bootstrap N) (id : N) (wal : List (WalRecord N C S)) (now : Nanos) (entropy : Nat)

theorem Bootstrap.recover_shaped (h : Stored (replay wal)) :
    Shaped (boot.recover id wal now entropy).toVital := by
  have hshaped := RaftCore.loaded_shaped id boot.allNodes now entropy h
  exact { hshaped with }

theorem Bootstrap.recover_mirrors (h : Stored (replay wal)) :
    Mirrors (replay wal) (boot.recover id wal now entropy).toVital :=
  { RaftCore.loaded_mirrors id boot.allNodes now entropy h with }

theorem Bootstrap.recover_hard : (boot.recover id wal now entropy).currentTerm = (replay wal).term ∧
      (boot.recover id wal now entropy).votedFor = (replay wal).votedFor := by
  obtain ⟨hterm, hvote, _⟩ := RaftCore.loaded_eq id boot.allNodes now entropy (replay wal)
  exact ⟨hterm, hvote⟩

theorem Bootstrap.recover_identity : (boot.recover id wal now entropy).toVital.identity =
      (id, boot.allNodes.toFinset, ∅, boot.walRecordsInstall) := by
  obtain ⟨_, _, hidentity, _⟩ := RaftCore.loaded_eq id boot.allNodes now entropy (replay wal)
  simp only [Vital.identity, Prod.mk.injEq] at hidentity
  obtain ⟨hid, hconfig, hlearners, _⟩ := hidentity
  exact congrArg₂ Prod.mk hid (congrArg₂ Prod.mk hconfig (congrArg₂ Prod.mk hlearners rfl))

theorem Bootstrap.recover_role : (boot.recover id wal now entropy).role = .follower :=
  (RaftCore.loaded_eq id boot.allNodes now entropy (replay wal)).2.2.2.2

theorem Bootstrap.recover_logged (h : Stored (replay wal)) :
    Logged wal (boot.recover id wal now entropy).toVital := by
  obtain ⟨hterm, hvote⟩ := boot.recover_hard id wal now entropy
  have hpending : (boot.recover id wal now entropy).pending = [] := rfl
  refine ⟨?_, ?_⟩
  · rw [hpending, append_nil]
    exact boot.recover_mirrors id wal now entropy h
  · rw [hpending, append_nil, ← hterm, ← hvote]
    rfl

end Recovery

variable {r : Replica N C S} {n : N}

section Replicas

variable {op : Op N C} {boot : Bootstrap N}

/-- What holds of a replica in every run. -/
structure Replica.Kept (boot : Bootstrap N) (n : N) (r : Replica N C S) : Prop where
  shaped : Shaped r.core.toVital
  identity : r.core.toVital.identity = (n, boot.allNodes.toFinset, ∅, boot.walRecordsInstall)
  stored : Stored (PersistedState.replay r.wal)
  logged : r.rewriteOwed = false → Logged r.wal r.core.toVital
  owed : r.core.installRewriteOwed = true → r.rewriteOwed = true
  outbox : ∀ p ∈ r.outbox, p.msg.Shaped

/-- The messages that an operation may read have the right shape. -/
def Op.Shaped : Op N C → Prop
  | .handle _ msg _ _ => msg.Shaped
  | _ => True

omit [LinearOrder N] in
theorem Op.Shaped.of_local (hlocal : ∀ s m, ¬ op.Reads s m) : op.Shaped := by
  cases op with
  | handle sender msg now entropy => exact (hlocal _ _ ⟨now, entropy, rfl⟩).elim
  | _ => trivial

omit [LinearOrder N] in
theorem Op.Shaped.reads (h : op.Shaped) {sender : N} {msg : RaftMsg N C} (hreads : op.Reads sender msg) :
    msg.Shaped := by
  obtain ⟨now, entropy, rfl⟩ := hreads
  exact h

/-- What is synced replays to the core. -/
structure Replica.Synced (r : Replica N C S) : Prop where
  mirrors : Mirrors (PersistedState.replay r.wal) r.core.toVital
  term : (PersistedState.replay r.wal).term = r.core.currentTerm
  votedFor : (PersistedState.replay r.wal).votedFor = r.core.votedFor

theorem Replica.persist_core (r : Replica N C S) (rewrite : Bool) :
    ∃ hard dirty owed, (r.persist rewrite).core.toVital =
        { r.core.toVital with
          pending := [], persistedHard := hard, snapshotDirty := dirty, installRewriteOwed := owed } ∧
      hard = (r.core.currentTerm, r.core.votedFor) ∧
      owed = (r.core.installRewriteOwed && !rewrite) := by
  have hcheck : ∃ pending, r.core.toVital.checkpointHard = { r.core.toVital with
        pending := pending
        persistedHard := (r.core.currentTerm, r.core.votedFor) } := by
    unfold Vital.checkpointHard
    split
    · exact ⟨_, rfl⟩
    · rename_i hhard
      refine ⟨r.core.pending, ?_⟩
      rw [not_not.mp hhard]
  obtain ⟨pending, hcheck⟩ := hcheck
  cases rewrite with
  | true =>
    refine ⟨_, false, false, ?_, rfl, by simp⟩
    simp only [Replica.persist, RaftCore.drainPersist, hcheck, if_true, RaftCore.takeSnapshotDirty]
  | false =>
    refine ⟨_, r.core.snapshotDirty, r.core.installRewriteOwed, ?_, rfl, by simp⟩
    simp only [Replica.persist, RaftCore.drainPersist, hcheck, Bool.false_eq_true, if_false]

section Kept

variable (h : r.Kept boot n)

include h

/-- A persist round brings the WAL up to the core, by the drained records or by the image. -/
theorem Replica.Kept.persist_synced (rewrite : Bool) (hrewrite : r.rewriteOwed = true → rewrite = true) :
    (r.persist rewrite).Synced := by
  obtain ⟨pending, hard, hcheck⟩ := r.core.toVital.checkpointHard_eq
  cases rewrite with
  | true =>
    have hshaped : Shaped r.core.drainPersist.1.toVital :=
      { h.shaped.checkpointHard with }
    obtain ⟨hmirrors, hterm, hvote⟩ := hshaped.replay_walImage
    exact ⟨{ hmirrors with }, hterm, hvote⟩
  | false =>
    have hlogged := h.logged (by
      by_contra hne
      exact Bool.false_ne_true (hrewrite (by simpa using hne)))
    obtain ⟨hchecked, hhard⟩ := hlogged.checkpointHard
    have hpair := hchecked.hard.trans hhard
    rw [Prod.mk.injEq] at hpair
    refine ⟨{ hchecked.mirrors with }, hpair.1.trans ?_, hpair.2.trans ?_⟩
    · change r.core.currentTerm = r.core.toVital.checkpointHard.currentTerm
      rw [hcheck]
    · change r.core.votedFor = r.core.toVital.checkpointHard.votedFor
      rw [hcheck]

theorem Replica.Kept.persist (rewrite : Bool) (hrewrite : r.rewriteOwed = true → rewrite = true) :
    (r.persist rewrite).Kept boot n := by
  have hsynced := h.persist_synced rewrite hrewrite
  obtain ⟨hard, dirty, owed, hcore, hhard, howed⟩ := r.persist_core rewrite
  have hshaped : Shaped (r.persist rewrite).core.toVital := by
    rw [hcore]
    exact { h.shaped with }
  have hpending : (r.persist rewrite).core.pending = [] := by rw [hcore]
  refine
    { shaped := hshaped
      identity := ?_, stored := hsynced.mirrors.stored hshaped
      logged := fun _ => ⟨?_, ?_⟩
      owed := ?_, outbox := ?_ }
  · rw [hcore]
    exact h.identity
  · rw [hpending, append_nil]
    exact hsynced.mirrors
  · rw [hpending, append_nil, hsynced.term, hsynced.votedFor, hcore, hhard]
  · rw [hcore, howed]
    intro hstill
    simp only [Bool.and_eq_true, Bool.not_eq_eq_eq_not, Bool.not_true] at hstill
    have := hrewrite (h.owed hstill.1)
    rw [hstill.2] at this
    cases this
  · unfold Replica.persist
    dsimp only
    split <;> exact fun p hp => by cases hp

/-- Draining the applied triples and marking indices durable touch neither log nor records. -/
theorem Replica.Kept.congr_core (core : RaftCore N C S) {durableIndex : Nat}
    (hcore : Vital.Applies { r.core.toVital with durableIndex := durableIndex } core.toVital) :
    ({ r with core := core } : Replica N C S).Kept boot n := by
  obtain ⟨_, _, _, _, _, hcore⟩ := hcore
  exact {
    shaped := by
      rw [hcore]
      exact { h.shaped with }
    identity := by
      rw [hcore]
      exact h.identity
    stored := h.stored
    logged hrewrite := by
      rw [hcore]
      exact { h.logged hrewrite with mirrors := { (h.logged hrewrite).mirrors with } }
    owed := by
      rw [hcore]
      exact h.owed
    outbox := h.outbox }

end Kept

variable [StateMachine C S]

/-- The rules of a run whose cores do not compact. -/
def noCompaction : SnapshotRules N C S where
  compact := False
  install _ _ _ := True
  stable _ _ _ _ _ _ _ _ := trivial

/-- The rules that every run meets. -/
def noRules : SnapshotRules N C S where
  compact := True
  install _ _ _ := True
  stable _ _ _ _ _ _ _ _ := trivial

variable (c : RaftCore N C S)

theorem RaftCore.snapshotsMeet_noRules (op : Op N C) : c.SnapshotsMeet noRules op := by
  cases op with
  | handle sender msg now entropy =>
    cases msg <;> first | trivial | exact fun _ _ => trivial
  | _ => trivial

theorem RaftCore.snapshotsMeet_of_local (hlocal : ∀ s m, ¬ op.Reads s m) {G : SnapshotRules N C S}
    (hcompact : G.compact) : c.SnapshotsMeet G op := by
  cases op with
  | handle sender msg now entropy => exact (hlocal _ _ ⟨now, entropy, rfl⟩).elim
  | snapshotUpto => exact hcompact
  | _ => trivial

variable {c}

theorem Shaped.perform (h : Shaped c.toVital) (hop : op.Shaped) :
    Shaped (c.perform op).1.toVital ∧ ∀ o ∈ (c.perform op).2, o.2.Shaped :=
  Moves.preserves (P := Raft.Shaped) (Q := fun o => o.2.Shaped) (fun _ _ _ ha hmove =>
    ha.move (fun _ _ hr => hop.reads hr) hmove) (c.perform_moves op (c.snapshotsMeet_noRules op)) h

variable {wal : List (WalRecord N C S)}

/-- Every operation but a compaction keeps the records in step. -/
theorem Logged.perform (hshaped : Shaped c.toVital) (hop : op.Shaped)
    (hmeets : c.SnapshotsMeet noCompaction op) (h : c.installRewriteOwed = false → Logged wal c.toVital)
    (howed : (c.perform op).1.installRewriteOwed = false) : Logged wal (c.perform op).1.toVital := by
  have hmoves := c.perform_moves op hmeets
  have hkept := Moves.preserves
    (P := fun v => Raft.Shaped v ∧ (v.installRewriteOwed = false → Logged wal v)) (Q := fun _ => True)
    (fun a b sent ha hmove =>
      ⟨⟨(ha.1.move (fun _ _ hr => hop.reads hr) hmove).1, Logged.move id ha.1 ha.2 hmove⟩,
        fun _ _ => trivial⟩) hmoves ⟨hshaped, h⟩
  exact hkept.1.2 howed

theorem RaftCore.perform_identity (op : Op N C) : (c.perform op).1.toVital.identity = c.toVital.identity :=
  (c.perform_moves op (c.snapshotsMeet_noRules op)).identity

theorem RaftCore.snapshotUpto_eq (index : Nat)
    (h : c.snapshotIndex = (c.snapshotUpto index).snapshotIndex) : c.snapshotUpto index = c := by
  unfold RaftCore.snapshotUpto at h ⊢
  dsimp only at h ⊢
  split
  · rfl
  · rename_i hbase
    rw [if_neg hbase] at h
    have hmoved : c.snapshotIndex = min index c.lastApplied := by
      rw [h]
      split <;> rfl
    exact absurd hmoved.ge hbase

/-- An operation after which no rewrite is needed has kept the records in step. -/
theorem Logged.perform_of_not_rewriteNeeded (hshaped : Shaped c.toVital) (hop : op.Shaped)
    (h : Logged wal c.toVital) (hneeded : rewriteNeeded c (c.perform op).1 op = false) :
    Logged wal (c.perform op).1.toVital := by
  cases op with
  | snapshotUpto index =>
    have hsame : c.snapshotUpto index = c :=
      c.snapshotUpto_eq index (not_not.mp (of_decide_eq_false hneeded))
    rw [RaftCore.perform, hsame]
    exact h
  | handle sender msg now entropy =>
    refine Logged.perform hshaped hop ?_ (fun _ => h) hneeded
    cases msg <;> first | trivial | exact fun _ _ => trivial
  | _ => exact Logged.perform hshaped hop trivial (fun _ => h) hneeded

theorem Replica.Kept.perform (h : r.Kept boot n) (hop : op.Shaped) : (r.perform op).Kept boot n where
  shaped := (h.shaped.perform hop).1
  identity := (r.core.perform_identity op).trans h.identity
  stored := h.stored
  logged hrewrite := by
    simp only [Replica.perform, Bool.or_eq_false_iff] at hrewrite
    exact Logged.perform_of_not_rewriteNeeded h.shaped hop (h.logged hrewrite.1) hrewrite.2
  owed howed := by
    simp only [Replica.perform, Bool.or_eq_true]
    cases op with
    | snapshotUpto index =>
      refine .inl (h.owed ?_)
      rw [← howed]
      simp only [Replica.perform, RaftCore.perform, RaftCore.snapshotUpto]
      split_ifs <;> rfl
    | _ => exact .inr howed
  outbox p hp := by
    rcases mem_append.mp hp with hp | hp
    · exact h.outbox p hp
    · obtain ⟨o, ho, rfl⟩ := mem_map.mp hp
      exact (h.shaped.perform hop).2 o ho

theorem Replica.Kept.crash (h : r.Kept boot n) (now : Nanos) (entropy : Nat) :
    (r.crash boot now entropy).Kept boot n where
  shaped := boot.recover_shaped r.core.id r.wal now entropy h.stored
  identity := by
    have hid : r.core.id = n := congrArg Prod.fst h.identity
    rw [← hid]
    exact boot.recover_identity r.core.id r.wal now entropy
  stored := h.stored
  logged _ := boot.recover_logged r.core.id r.wal now entropy h.stored
  owed howed := by
    have := (RaftCore.loaded_eq r.core.id boot.allNodes now entropy (replay r.wal)).2.2.2.1
    exact absurd (howed.symm.trans this) (by simp)
  outbox p hp := by cases hp

theorem Vital.markDurableThrough_eq (c : Vital N C S) (index : Nat) :
    Applies { c with durableIndex := max c.durableIndex index } (c.markDurableThrough index) := by
  unfold Vital.markDurableThrough
  split
  · rename_i hlt
    rw [max_eq_right hlt.le]
    exact Vital.apply_eq _
  · rename_i hge
    rw [max_eq_left (not_lt.mp hge)]
    exact ⟨c.lastApplied, c.pendingApply, c.metadata, c.applied, c.panicked, rfl⟩

end Replicas

variable [StateMachine C S]

/-- What an event that the drivers allow makes of one replica, and the messages that it sends. -/
inductive Group.Turn (boot : Bootstrap N) (g : Group N C S) :
    Event N C → N → Replica N C S → List (Packet N C) → Prop
  | act {node : N} {op : Op N C} (hlocal : ∀ s m, ¬ op.Reads s m) :
    Turn boot g (.act node op) node ((g.replica node).perform op) []
  | deliver {position : Nat} {now : Nanos} {entropy : Nat} {p : Packet N C}
    (hp : g.net[position]? = some p) :
    Turn boot g (.deliver position now entropy) p.dst
      ((g.replica p.dst).perform (.handle p.src p.msg now entropy)) []
  | drainApply {node : N} :
    Turn boot g (.drainApply node) node { g.replica node with core := (g.replica node).core.drainApply.1 } []
  | sync {node : N} {rewrite : Bool} (hallowed : (g.replica node).rewriteOwed = true → rewrite = true) :
    Turn boot g (.sync node rewrite) node ((g.replica node).persist rewrite) (g.replica node).outbox
  | markDurable {node : N} {index : Nat} (hcovers : (g.replica node).Covers index) :
    Turn boot g (.markDurable node index) node
    { g.replica node with core := (g.replica node).core.markDurableThrough index } []
  | crash {node : N} (now : Nanos) (entropy : Nat) :
    Turn boot g (.crash node now entropy) node ((g.replica node).crash boot now entropy) []

/-- What holds of a group in every run. -/
structure Group.Kept (boot : Bootstrap N) (g : Group N C S) : Prop where
  replicas : ∀ n, (g.replica n).Kept boot n
  net : ∀ p ∈ g.net, p.msg.Shaped

theorem Group.Kept.start (boot : Bootstrap N) (clock : N → Nanos × Nat) :
    (Group.start boot clock : Group N C S).Kept boot where
  replicas n :=
    { shaped :=
        { contiguous := Contiguous.nil _
          paired := fun e he => by cases he
          config := rfl, learners := rfl, peersNodup := boot.nodup.filter _
          peers := fun p => by simp [Group.start, Bootstrap.fresh, RaftCore.new, RaftCore.resetElectionTimer]
          size := (toFinset_card_of_nodup boot.nodup).symm
          bare := fun _ => ⟨rfl, rfl, rfl⟩
          based := fun h => absurd h (lt_irrefl 0)
          incoming := fun inc hinc => by cases hinc }
      identity := rfl, stored := Stored.empty
      logged := fun _ => ⟨⟨rfl, rfl, rfl, rfl⟩, rfl⟩
      owed := fun h => by cases h
      outbox := fun p hp => by cases hp }
  net p hp := by cases hp

variable {boot : Bootstrap N}

/-- What the records of a replica replay to, compared with its core. -/
structure Replica.WalRefines (boot : Bootstrap N) (r : Replica N C S)
    (state : PersistedState N C S) : Prop where
  term : state.term = r.core.currentTerm
  votedFor : state.votedFor = r.core.votedFor
  log : state.log = r.core.log
  base : state.snapshot.map Prod.snd =
    if r.core.snapshotIndex = 0 then none else some (r.core.snapshotIndex, r.core.snapshotTerm)
  snapshotConfig : state.snapshotConfig = r.core.snapshotConfig
  snapshotLearners : state.snapshotLearners = r.core.snapshotLearners
  contiguous : state.checkLogContiguous = .ok ()
  config : ∀ now entropy, (RaftCore.recovered r.core.id boot.allNodes state now entropy).config = r.core.config
  learners : ∀ now entropy, (RaftCore.recovered r.core.id boot.allNodes state now entropy).learners =
    r.core.learners

theorem Replica.Kept.walRefines (h : r.Kept boot n) (hsynced : r.Synced) :
    r.WalRefines boot (replay r.wal) := by
  have hstored := hsynced.mirrors.stored h.shaped
  have hidentity := h.identity
  simp only [Vital.identity, Prod.mk.injEq] at hidentity
  obtain ⟨_, hconfig, hlearners, _⟩ := hidentity
  have hrecovered (now : Nanos) (entropy : Nat) :=
    boot.recover_shaped r.core.id r.wal now entropy hstored
  have hmirrors (now : Nanos) (entropy : Nat) :=
    boot.recover_mirrors r.core.id r.wal now entropy hstored
  have hinitial (now : Nanos) (entropy : Nat) := boot.recover_identity r.core.id r.wal now entropy
  simp only [Vital.identity, Prod.mk.injEq] at hinitial
  refine
    { term := hsynced.term
      votedFor := hsynced.votedFor, log := hsynced.mirrors.log, base := hsynced.mirrors.base
      snapshotConfig := hsynced.mirrors.config, snapshotLearners := hsynced.mirrors.learners
      contiguous := checkFrom_ok 0 hstored.contiguous
      config := fun now entropy => ?_
      learners := fun now entropy => ?_ }
  · refine (hrecovered now entropy).config.trans ?_
    rw [← (hmirrors now entropy).log, ← (hmirrors now entropy).config, (hinitial now entropy).2.1,
      hsynced.mirrors.log, hsynced.mirrors.config, h.shaped.config, hconfig]
  · refine (hrecovered now entropy).learners.trans ?_
    rw [← (hmirrors now entropy).log, ← (hmirrors now entropy).learners, (hinitial now entropy).2.2.1,
      hsynced.mirrors.log, hsynced.mirrors.learners, h.shaped.learners, hlearners]

variable [DecidableEq C]

section Turns

variable {g g' : Group N C S} {ev : Event N C} (hstep : g.step boot ev = some g')
include hstep

/-- Every event is the turn of one replica. -/
theorem Group.step_turn : ∃ node r sent, g.Turn boot ev node r sent ∧
    g'.replica = Function.update g.replica node r ∧ g'.net = g.net ++ sent ∧
    g'.drained ⊆ g.drained ++ (g.replica node).core.pendingApply := by
  have hkept (node : N) : g.drained ⊆ g.drained ++ (g.replica node).core.pendingApply :=
    subset_append_left _ _
  have hquiet := (append_nil g.net).symm
  cases ev with
  | act node op =>
    cases op with
    | handle => cases hstep
    | _ =>
      cases hstep
      refine ⟨_, _, _, .act fun s m hreads => ?_, rfl, hquiet, hkept node⟩
      obtain ⟨_, _, heq⟩ := hreads
      cases heq
  | deliver position now entropy =>
    simp only [Group.step, bind_eq_bind, bind_eq_some_iff, some.injEq] at hstep
    obtain ⟨p, hp, rfl⟩ := hstep
    exact ⟨_, _, _, .deliver hp, rfl, hquiet, hkept p.dst⟩
  | drainApply node =>
    cases hstep
    exact ⟨_, _, _, .drainApply, rfl, hquiet, List.Subset.refl _⟩
  | sync node rewrite =>
    simp only [Group.step] at hstep
    split at hstep
    · cases hstep
    · rename_i hallowed
      cases hstep
      exact ⟨_, _, _, .sync (by simpa using hallowed), rfl, rfl, hkept node⟩
  | markDurable node index =>
    simp only [Group.step] at hstep
    split at hstep
    · rename_i hcovers
      cases hstep
      exact ⟨_, _, _, .markDurable hcovers, rfl, hquiet, hkept node⟩
    · cases hstep
  | crash node now entropy =>
    cases hstep
    exact ⟨_, _, _, .crash now entropy, rfl, hquiet, hkept node⟩

theorem Group.step_replicas {P : N → Replica N C S → Prop} (h : ∀ n, P n (g.replica n))
    (hturn : ∀ node r sent, g.Turn boot ev node r sent → P node r) (n : N) : P n (g'.replica n) := by
  obtain ⟨node, r, sent, hr, hreplica, -⟩ := Group.step_turn hstep
  rw [hreplica]
  by_cases hn : n = node
  · rw [hn, Function.update_self]
    exact hturn node r sent hr
  · rw [Function.update_of_ne hn]
    exact h n

theorem Group.step_net {Q : Packet N C → Prop} (hnet : ∀ p ∈ g.net, Q p)
    (hout : ∀ n, ∀ p ∈ (g.replica n).outbox, Q p) : ∀ p ∈ g'.net, Q p := by
  obtain ⟨node, r, sent, hturn, -, heq, -⟩ := Group.step_turn hstep
  intro p hp
  rw [heq] at hp
  rcases mem_append.mp hp with hp | hp
  · exact hnet p hp
  · cases hturn with
    | sync => exact hout node p hp
    | _ => cases hp

end Turns

theorem Group.Kept.step {g g' : Group N C S} {ev : Event N C} (h : g.Kept boot)
    (hstep : g.step boot ev = some g') : g'.Kept boot := by
  refine ⟨Group.step_replicas hstep h.replicas fun node _ _ hturn => ?_,
    Group.step_net hstep h.net fun n => (h.replicas n).outbox⟩
  cases hturn with
  | act hlocal => exact (h.replicas node).perform (.of_local hlocal)
  | deliver hp => exact (h.replicas _).perform (h.net _ (mem_of_getElem? hp))
  | drainApply => exact (h.replicas node).congr_core _ ⟨_, _, _, _, _, rfl⟩
  | sync hallowed => exact (h.replicas node).persist _ hallowed
  | markDurable =>
    exact (h.replicas node).congr_core _ ((g.replica node).core.toVital.markDurableThrough_eq _)
  | crash now entropy => exact (h.replicas node).crash now entropy

theorem Group.Kept.run {g g' : Group N C S} {evs : List (Event N C)}
    (h : g.Kept boot) (hrun : g.run boot evs = some g') : g'.Kept boot :=
  Group.run_preserves (fun _ _ => True) (fun _ _ _ hP _ hs => hP.step hs) h
    (Group.runMeets_of_forall (fun _ _ => trivial) g evs) hrun

/-- After every persist round of every run, the synced records replay to the core. -/
theorem wal_refines_core (boot : Bootstrap N) (clock : N → Nanos × Nat) (evs : List (Event N C))
    (node : N) (rewrite : Bool) (g : Group N C S)
    (hrun : (Group.start boot clock).run boot (evs ++ [.sync node rewrite]) = some g) :
    (g.replica node).WalRefines boot (replay (g.replica node).wal) := by
  rw [Group.run_append, bind_eq_some_iff] at hrun
  obtain ⟨before, hevs, hsync⟩ := hrun
  have hkept := (Group.Kept.start boot clock).run hevs
  simp only [Group.run, bind_eq_bind, bind_eq_some_iff] at hsync
  obtain ⟨after, hstep, heq⟩ := hsync
  cases heq
  have hafter := hkept.step hstep
  refine (hafter.replicas node).walRefines ?_
  obtain ⟨_, _, _, hturn, hreplica, -⟩ := Group.step_turn hstep
  cases hturn with
  | sync hallowed =>
    rw [hreplica, Function.update_self]
    exact (hkept.replicas node).persist_synced rewrite hallowed

/-- A solo voter elects itself, writes, compacts its log to the first entry and writes again. -/
def compactingRun : List (Event Nat Command) :=
  [.act 0 (.tick late 0 true), .act 0 (.propose (.write 5)), .sync 0 false, .markDurable 0 2,
    .act 0 (.snapshotUpto 1), .act 0 (.propose (.write 6))]

theorem wal_refines_core_compacting : ∃ g : Group Nat Command Unit,
      (Group.start solo zeroClock).run solo (compactingRun ++ [.sync 0 true]) = some g ∧
        (g.replica 0).core.snapshotIndex = 1 ∧ (g.replica 0).core.log.length = 2 ∧
        (g.replica 0).WalRefines solo (replay (g.replica 0).wal) := by
  obtain ⟨g, hg, hbase, hlength⟩ : ∃ g : Group Nat Command Unit,
      g ∈ (Group.start solo zeroClock).run solo (compactingRun ++ [.sync 0 true]) ∧
        (g.replica 0).core.snapshotIndex = 1 ∧ (g.replica 0).core.log.length = 2 := by decide +kernel
  exact ⟨g, hg, hbase, hlength, wal_refines_core solo zeroClock compactingRun 0 true g hg⟩

end AnimusDb.Raft
