import AnimusDb.RaftShape

/-! The WAL refines the core: the replay of the synced records followed by the pending ones is the
core's log, snapshot base and configuration, and the hard state of the last drain. Log records are
written when the log changes and hard records when the core is drained, so the two are compared
separately. -/

open QuorumSets LogConsensus List Option

namespace AnimusDb.Raft

open PersistedState

variable {N C S : Type} [LinearOrder N] {state : PersistedState N C S}

namespace PersistedState

omit [LinearOrder N] in
theorem replay_append (records more : List (WalRecord N C S)) :
    replay (records ++ more) = more.foldl replayRecord (replay records) :=
  foldl_append

omit [LinearOrder N] in
theorem replay_snoc (records : List (WalRecord N C S)) (last : WalRecord N C S) :
    replay (records ++ [last]) = replayRecord (replay records) last :=
  replay_append records [last]

omit [LinearOrder N] in
theorem foldl_replay_append (state : PersistedState N C S) (log : List (LogEntry N C)) :
    (log.map WalRecord.append).foldl replayRecord state = { state with log := state.log ++ log } := by
  induction log generalizing state with
  | nil => simp
  | cons e rest ih => simp [ih, replayRecord]

omit [LinearOrder N] in
theorem checkFrom_ok {base : Nat} (pos : Nat) {log : List (LogEntry N C)}
    (h : Contiguous (base + pos) log) : checkFrom base pos log = .ok () := by
  induction log generalizing pos with
  | nil => rfl
  | cons e rest ih =>
    obtain ⟨he, hrest⟩ := h.cons
    rw [checkFrom, if_neg (by omega)]
    exact ih (pos + 1) hrest

end PersistedState

/-- The persisted state has the core's log, snapshot base and snapshot configuration. -/
structure Mirrors (state : PersistedState N C S) (c : Vital N C S) : Prop where
  log : state.log = c.log
  base : state.snapshot.map Prod.snd =
    if c.snapshotIndex = 0 then none else some (c.snapshotIndex, c.snapshotTerm)
  config : state.snapshotConfig = c.snapshotConfig
  learners : state.snapshotLearners = c.snapshotLearners

variable {c d : Vital N C S}

theorem Mirrors.base_eq (h : Mirrors state c) : state.base = c.snapshotIndex := by
  have hbase := h.base
  unfold PersistedState.base
  split at hbase
  · rename_i hzero
    rw [map_eq_none_iff] at hbase
    rw [hbase, hzero]
  · obtain ⟨⟨metadata, base⟩, hsnapshot, heq⟩ := map_eq_some_iff.mp hbase
    rw [hsnapshot]
    dsimp only at heq
    rw [heq]

theorem Shaped.replay_walImage (h : Shaped c) : Mirrors (replay c.walImage) c ∧
      (replay c.walImage).term = c.currentTerm ∧ (replay c.walImage).votedFor = c.votedFor := by
  unfold Vital.walImage
  rw [replay_append, foldl_cons, foldl_replay_append]
  rcases Nat.eq_zero_or_pos c.snapshotIndex with hzero | hpos
  · obtain ⟨_, hconfig, hlearners⟩ := h.bare hzero
    rw [if_neg (by omega)]
    exact ⟨⟨rfl, by rw [if_pos hzero]; rfl, hconfig.symm, hlearners.symm⟩, rfl, rfl⟩
  · rw [if_pos hpos]
    exact ⟨⟨rfl, by rw [if_neg (by omega)]; rfl, rfl, rfl⟩, rfl, rfl⟩

/-- The synced records and the pending ones together replay to the core; the hard state is the one
of the last drain. -/
structure Logged (wal : List (WalRecord N C S)) (c : Vital N C S) : Prop where
  mirrors : Mirrors (PersistedState.replay (wal ++ c.pending)) c
  hard : ((PersistedState.replay (wal ++ c.pending)).term,
    (PersistedState.replay (wal ++ c.pending)).votedFor) = c.persistedHard

variable {acc : Vital N C S × Nat}

variable {wal : List (WalRecord N C S)}

theorem Logged.pushEntry (h : Logged wal c) (e : LogEntry N C) : Logged wal (c.pushEntry e) := by
  rw [Vital.pushEntry_eq]
  refine ⟨?_, ?_⟩
  · rw [← append_assoc, replay_snoc]
    refine ⟨?_, h.mirrors.base, h.mirrors.config, h.mirrors.learners⟩
    exact congrArg (· ++ [e]) h.mirrors.log
  · rw [← append_assoc, replay_snoc]
    exact h.hard

theorem Logged.logTruncate (h : Logged wal c) (keep : Nat) : Logged wal (c.logTruncate keep) := by
  refine ⟨?_, ?_⟩
  · change Mirrors (replay (wal ++ (c.pending ++ [WalRecord.truncate keep]))) _
    rw [← append_assoc, replay_snoc]
    refine ⟨?_, h.mirrors.base, h.mirrors.config, h.mirrors.learners⟩
    exact congrArg (take keep) h.mirrors.log
  · change ((replay (wal ++ (c.pending ++ [WalRecord.truncate keep]))).term,
      (replay (wal ++ (c.pending ++ [WalRecord.truncate keep]))).votedFor) = _
    rw [← append_assoc, replay_snoc]
    exact h.hard

theorem Logged.appendStep (h : Logged wal acc.1) (e : LogEntry N C) :
    Logged wal (Vital.appendStep acc e).1 := by
  simp only [Vital.appendStep]
  split_ifs
  · exact { h with mirrors := { h.mirrors with } }
  · exact (h.logTruncate _).pushEntry e
  · exact h
  · exact h.pushEntry e

theorem Logged.foldl_appendStep (h : Logged wal acc.1)
    (entries : List (LogEntry N C)) : Logged wal (entries.foldl Vital.appendStep acc).1 := by
  induction entries generalizing acc with
  | nil => exact h
  | cons e rest ih => exact ih (h.appendStep e)

theorem Logged.install {inc : IncomingSnapshot}
    {config learners : Option (Finset N)} (h : Logged wal c) (hrecords : c.walRecordsInstall = true)
    (hinc : 0 < inc.lastIndex) : Logged wal (c.install inc config learners) := by
  unfold Vital.install
  dsimp only
  rw [if_pos (by exact hrecords)]
  refine ⟨?_, ?_⟩
  · dsimp only
    rw [← append_assoc, replay_snoc]
    refine ⟨rfl, ?_, rfl, rfl⟩
    change some (inc.lastIndex, inc.lastTerm) = if inc.lastIndex = 0 then none else _
    rw [if_neg (by omega)]
    rfl
  · dsimp only
    rw [← append_assoc, replay_snoc]
    exact h.hard

/-- A drained core: the hard state is checkpointed, and nothing is pending. -/
theorem Logged.checkpointHard (h : Logged wal c) :
    Logged wal c.checkpointHard ∧ c.checkpointHard.persistedHard = (c.currentTerm, c.votedFor) := by
  unfold Vital.checkpointHard
  split
  · refine ⟨⟨?_, ?_⟩, rfl⟩
    · dsimp only
      rw [← append_assoc, replay_snoc]
      exact { h.mirrors with }
    · dsimp only
      rw [← append_assoc, replay_snoc]
      rfl
  · rename_i hhard
    exact ⟨h, (not_not.mp hhard).symm⟩

theorem Vital.checkpointHard_eq (c : Vital N C S) :
    ∃ pending hard, c.checkpointHard = { c with pending := pending, persistedHard := hard } := by
  unfold Vital.checkpointHard
  split
  · exact ⟨_, _, rfl⟩
  · exact ⟨_, _, rfl⟩

theorem Shaped.checkpointHard (h : Shaped c) : Shaped c.checkpointHard := by
  obtain ⟨_, _, heq⟩ := c.checkpointHard_eq
  rw [heq]
  exact { h with }

variable [StateMachine C S]

theorem Logged.apply (h : Logged wal c) : Logged wal c.apply := by
  obtain ⟨_, _, _, _, _, heq⟩ := c.apply_eq
  rw [heq]
  exact { h with mirrors := { h.mirrors with } }

theorem Logged.followCommit (h : Logged wal c) (leaderCommit idx : Nat) :
    Logged wal (c.followCommit leaderCommit idx) := by
  unfold Vital.followCommit
  split
  · exact Logged.apply ({ h with mirrors := { h.mirrors with } })
  · exact h

/-- Every move but a compaction keeps the records in step with the core, until an install that is
not recorded obliges the driver to rewrite them. -/
theorem Logged.move {In : N → RaftMsg N C → Prop} {G : SnapshotRules N C S}
    {sent : List (Out N C)} (hcompact : ¬ G.compact) (hshaped : Shaped c)
    (h : c.installRewriteOwed = false → Logged wal c) (hmove : Move In G c d sent)
    (howed : d.installRewriteOwed = false) : Logged wal d := by
  have h : Logged wal c := h (by
    by_contra hne
    rw [hmove.standing.2 (by simpa using hne)] at howed
    cases howed)
  cases hmove with
  | lead =>
    refine Logged.pushEntry ?_ _
    exact { h with mirrors := { h.mirrors with } }
  | append m command config learners =>
    have hpush := h.pushEntry (c.ownEntry command config learners)
    exact { hpush with mirrors := { hpush.mirrors with } }
  | apply => exact h.apply
  | accept => exact Logged.followCommit (Logged.foldl_appendStep h _) _ _
  | install _ _ inc _ _ _ _ _ _ config learners metadata _ _ hinc =>
    have hrecords : c.walRecordsInstall = true := by
      by_contra hne
      have hstanding := congrArg Prod.snd (Vital.install_standing
        { c with incomingSnapshot := none, metadata := metadata } inc config learners)
      rw [if_neg hne] at hstanding
      exact Bool.false_ne_true (howed.symm.trans hstanding)
    refine Logged.install ?_ hrecords (hshaped.incoming _ hinc)
    exact { h with mirrors := { h.mirrors with } }
  | compact _ _ _ hrules => exact absurd hrules hcompact
  | _ => exact { h with mirrors := { h.mirrors with } }

end AnimusDb.Raft
