import AnimusDb.RaftOpMoves
import AnimusDb.ConsensusLog

/-! The shape that every core keeps in every run, whatever the network, the installs and the crashes
do: the log is contiguous above the snapshot base, membership entries carry voters and learners
together, and the active configuration is the one the log leaves in force. -/

open QuorumSets LogConsensus List

namespace AnimusDb.Raft

variable {N C S : Type} [LinearOrder N] {e : LogEntry N C}

/-- The entry at position `k` has index `base + 1 + k`. -/
def Contiguous (base : Nat) (log : List (LogEntry N C)) : Prop :=
  ∀ k e, log[k]? = some e → e.index = base + 1 + k

omit [LinearOrder N] in
theorem Contiguous.nil (base : Nat) : Contiguous base ([] : List (LogEntry N C)) := by
  simp [Contiguous]

variable {base : Nat} {log : List (LogEntry N C)}

omit [LinearOrder N] in
theorem Contiguous.snoc (h : Contiguous base log) (he : e.index = base + 1 + log.length) :
    Contiguous base (log ++ [e]) := by
  intro k x hx
  rcases lt_trichotomy k log.length with hk | rfl | hk
  · rw [getElem?_append_left hk] at hx
    exact h k x hx
  · simp only [getElem?_concat_length, Option.some.injEq] at hx
    rw [← hx, he]
  · rw [getElem?_eq_none (by simp; omega)] at hx
    cases hx

omit [LinearOrder N] in
theorem Contiguous.take (h : Contiguous base log) (keep : Nat) : Contiguous base (log.take keep) := by
  intro k e he
  rw [getElem?_take] at he
  split at he
  · exact h k e he
  · cases he

omit [LinearOrder N] in
theorem Contiguous.drop (h : Contiguous base log) (cut : Nat) : Contiguous (base + cut) (log.drop cut) := by
  intro k e he
  rw [getElem?_drop] at he
  have := h _ e he
  omega

omit [LinearOrder N] in
theorem Contiguous.cons (h : Contiguous base (e :: log)) : e.index = base + 1 ∧ Contiguous (base + 1) log :=
  ⟨h 0 e rfl, h.drop 1⟩

omit [LinearOrder N] in
/-- Where an index cuts the log. -/
theorem Contiguous.cut (h : Contiguous base log) (n : Nat) :
    (∀ e ∈ log.take (n - base), e.index ≤ n) ∧ ∀ e ∈ log.drop (n - base), n < e.index := by
  refine ⟨fun e he => ?_, fun e he => ?_⟩
  · obtain ⟨k, hk⟩ := mem_iff_getElem?.mp he
    rw [getElem?_take] at hk
    split at hk
    · have := h k e hk
      omega
    · cases hk
  · obtain ⟨k, hk⟩ := mem_iff_getElem?.mp he
    rw [getElem?_drop] at hk
    have := h _ e hk
    omega

omit [LinearOrder N] in
theorem Contiguous.filter_lt (h : Contiguous base log) (n : Nat) :
    (log.filter fun e => decide (n < e.index)) = log.drop (n - base) := by
  obtain ⟨hlow, hhigh⟩ := h.cut n
  conv_lhs => rw [← take_append_drop (n - base) log, filter_append]
  rw [filter_eq_nil_iff.mpr (by simpa using hlow), filter_eq_self.mpr (by simpa using hhigh), nil_append]

omit [LinearOrder N] in
theorem Contiguous.filter_le (h : Contiguous base log)
    (n : Nat) : (log.filter fun e => decide (e.index ≤ n)) = log.take (n - base) := by
  obtain ⟨hlow, hhigh⟩ := h.cut n
  conv_lhs => rw [← take_append_drop (n - base) log, filter_append]
  rw [filter_eq_self.mpr (by simpa using hlow), filter_eq_nil_iff.mpr (by simpa using hhigh), append_nil]

omit [LinearOrder N] in
theorem Contiguous.filter_ge (h : Contiguous base log) {next : Nat} (hnext : 0 < next) :
    (log.filter fun e => decide (next ≤ e.index)) = log.drop (next - 1 - base) := by
  rw [← h.filter_lt (next - 1)]
  congr 1
  funext e
  rw [decide_eq_decide]
  omega

theorem Ledger.lastLogIndex_eq {c : Ledger N C} (h : Contiguous c.snapshotIndex c.log) :
    c.lastLogIndex = c.snapshotIndex + c.log.length := by
  unfold Ledger.lastLogIndex
  rcases eq_nil_or_concat c.log with hnil | ⟨rest, e, hlog⟩
  · simp [hnil]
  · rw [concat_eq_append] at hlog
    have := h rest.length e (by simp [hlog])
    simp only [hlog, getLast?_concat, length_append, length_singleton]
    omega

/-- Voters and learners are set together. -/
def LogEntry.Paired (e : LogEntry N C) : Prop := e.config.isSome = e.learners.isSome

theorem Ledger.configAt_eq {c : Ledger N C} (h : Contiguous c.snapshotIndex c.log) (index : Nat) :
    c.configAt index = latest (·.config) (c.snapshotConfig.getD c.initialConfig)
    (c.log.take (index - c.snapshotIndex)) := by
  rw [← h.filter_le index, latest_filter _ _ _ (·.config.isSome) _ fun _ _ => rfl]
  unfold Ledger.configAt lastConfigEntry
  rw [Option.getD_or]

theorem Ledger.learnersAt_eq {c : Ledger N C} (h : Contiguous c.snapshotIndex c.log)
    (hpaired : ∀ e ∈ c.log, e.Paired) (index : Nat) :
    c.learnersAt index = latest (·.learners) (c.snapshotLearners.getD c.initialLearners)
      (c.log.take (index - c.snapshotIndex)) := by
  rw [← h.filter_le index, latest_filter _ _ _ (·.config.isSome) _ hpaired]
  unfold Ledger.learnersAt lastConfigEntry
  rw [Option.getD_or]

variable {c : Vital N C S} {inc : IncomingSnapshot}

structure Shaped (c : Vital N C S) : Prop where
  contiguous : Contiguous c.snapshotIndex c.log
  paired : ∀ e ∈ c.log, e.Paired
  config : c.config = latest (·.config) (c.snapshotConfig.getD c.initialConfig) c.log
  learners : c.learners = latest (·.learners) (c.snapshotLearners.getD c.initialLearners) c.log
  peersNodup : c.peers.Nodup
  peers : ∀ p, p ∈ c.peers ↔ p ∈ c.config ∧ p ≠ c.id
  size : c.clusterSize = c.config.card
  bare : c.snapshotIndex = 0 → c.snapshotTerm = 0 ∧ c.snapshotConfig = none ∧ c.snapshotLearners = none
  based : 0 < c.snapshotIndex → c.snapshotConfig.isSome = true ∧ c.snapshotLearners.isSome = true
  incoming : ∀ inc, c.incomingSnapshot = some inc → 0 < inc.lastIndex

def RaftMsg.Shaped : RaftMsg N C → Prop
  | .appendEntries _ _ prevLogIndex _ entries _ =>
    Contiguous prevLogIndex entries ∧ ∀ e ∈ entries, e.Paired
  | .installSnapshot _ _ lastIndex _ _ _ _ _ config learners =>
    0 < lastIndex ∧ config.isSome = true ∧ learners.isSome = true
  | _ => True

theorem Shaped.lastLogIndex (h : Shaped c) : c.lastLogIndex = c.snapshotIndex + c.log.length :=
  Ledger.lastLogIndex_eq h.contiguous

/-- A core whose configuration has just been recomputed has the shape that its log has. -/
theorem Shaped.recomputeConfig (hlog : Contiguous c.snapshotIndex c.log) (hpaired : ∀ e ∈ c.log, e.Paired)
    (hbare : c.snapshotIndex = 0 → c.snapshotTerm = 0 ∧ c.snapshotConfig = none ∧ c.snapshotLearners = none)
    (hbased : 0 < c.snapshotIndex → c.snapshotConfig.isSome = true ∧ c.snapshotLearners.isSome = true)
    (hincoming : ∀ inc, c.incomingSnapshot = some inc → 0 < inc.lastIndex) : Shaped c.recomputeConfig := by
  have htake : c.log.take (c.lastLogIndex - c.snapshotIndex) = c.log := by
    rw [Ledger.lastLogIndex_eq hlog, Nat.add_sub_cancel_left, take_length]
  rw [Vital.recomputeConfig, Ledger.configAt_eq hlog, Ledger.learnersAt_eq hlog hpaired, htake]
  exact
    { contiguous := hlog
      paired := hpaired, config := rfl, learners := rfl, peersNodup := (nodup_ascending _).filter _
      peers := fun p => by simp [Vital.applyConfig]
      size := rfl, bare := hbare, based := hbased, incoming := hincoming }

theorem Shaped.pushEntry (h : Shaped c)
    (hindex : e.index = c.lastLogIndex + 1) (hpaired : e.Paired) : Shaped (c.pushEntry e) := by
  have hindex' : e.index = c.snapshotIndex + 1 + c.log.length := by
    rw [hindex, h.lastLogIndex]
    omega
  rw [Vital.pushEntry_eq]
  refine
    { h with
      contiguous := h.contiguous.snoc hindex', paired := ?_, config := ?_, learners := ?_, peersNodup := ?_,
      peers := ?_
      size := ?_ }
  · exact forall_mem_append.mpr ⟨h.paired, forall_mem_singleton.mpr hpaired⟩
  · simp only [latest_snoc, h.config]
  · simp only [latest_snoc, ← h.learners]
    unfold LogEntry.Paired at hpaired
    rw [hpaired]
    cases e.learners <;> simp
  · cases e.config with
    | none => exact h.peersNodup
    | some voters => exact (nodup_ascending _).filter _
  · cases e.config with
    | none => exact h.peers
    | some voters => exact fun p => by simp
  · cases e.config with
    | none => exact h.size
    | some voters => rfl

theorem Shaped.logTruncate (h : Shaped c) (keep : Nat) : Shaped (c.logTruncate keep) :=
  Shaped.recomputeConfig (h.contiguous.take keep) (fun e he => h.paired e (mem_of_mem_take he)) h.bare h.based
    h.incoming

theorem Vital.pushEntry_lastLogIndex (c : Vital N C S) (e : LogEntry N C) :
    (c.pushEntry e).lastLogIndex = e.index := by
  rw [Vital.pushEntry_eq]
  simp [Ledger.lastLogIndex]

theorem Shaped.logTruncate_lastLogIndex (h : Shaped c) (keep : Nat) (hkeep : keep ≤ c.log.length) :
    (c.logTruncate keep).lastLogIndex = c.snapshotIndex + keep := by
  rw [(h.logTruncate keep).lastLogIndex]
  change c.snapshotIndex + (c.log.take keep).length = _
  rw [length_take, min_eq_left hkeep]

/-- One entry of a batch keeps the shape, and the log reaches the entry. -/
theorem Shaped.appendStep (h : Shaped c) {idx : Nat}
    (hidx : idx ≤ c.lastLogIndex) (hindex : e.index = idx + 1) (hpaired : e.Paired) :
    Shaped (Vital.appendStep (c, idx) e).1 ∧ (Vital.appendStep (c, idx) e).2 = idx + 1 ∧
      idx + 1 ≤ (Vital.appendStep (c, idx) e).1.lastLogIndex := by
  have hlast := h.lastLogIndex
  simp only [Vital.appendStep]
  split
  · rename_i hin
    split
    · split
      · exact ⟨{ h with }, rfl, hin⟩
      · rename_i hbase
        have hcut := h.logTruncate_lastLogIndex (idx + 1 - c.snapshotIndex - 1) (by omega)
        refine ⟨(h.logTruncate _).pushEntry ?_ hpaired, rfl, ?_⟩
        · rw [hcut, hindex]
          omega
        · rw [Vital.pushEntry_lastLogIndex, hindex]
    · exact ⟨h, rfl, hin⟩
  · rename_i hout
    refine ⟨h.pushEntry (by rw [hindex]; omega) hpaired, rfl, ?_⟩
    rw [Vital.pushEntry_lastLogIndex, hindex]

theorem Shaped.foldl_appendStep (h : Shaped c) {prev : Nat} {entries : List (LogEntry N C)}
    (hprev : prev ≤ c.lastLogIndex)
    (hentries : Contiguous prev entries) (hpaired : ∀ e ∈ entries, e.Paired) :
    Shaped (entries.foldl Vital.appendStep (c, prev)).1 ∧
      (entries.foldl Vital.appendStep (c, prev)).2 = prev + entries.length := by
  induction entries generalizing c prev with
  | nil => exact ⟨h, rfl⟩
  | cons e rest ih =>
    obtain ⟨hindex, hrest⟩ := hentries.cons
    obtain ⟨hshaped, hidx, hreach⟩ := h.appendStep hprev hindex (hpaired e mem_cons_self)
    rw [foldl_cons]
    generalize Vital.appendStep (c, prev) e = acc at hshaped hidx hreach
    obtain ⟨d, idx⟩ := acc
    dsimp only at hshaped hidx hreach
    subst hidx
    obtain ⟨hdone, hlen⟩ :=
      ih hshaped hreach hrest fun x hx => hpaired x (mem_cons_of_mem _ hx)
    refine ⟨hdone, hlen.trans ?_⟩
    rw [length_cons]
    omega

/-- What the leader sends of its log is contiguous from the previous index on. -/
theorem Shaped.appendMsg (h : Shaped c) {next : Nat}
    (hnext : c.snapshotIndex < next) (empty : Bool) : (c.appendMsg next empty).Shaped := by
  unfold Ledger.appendMsg
  cases empty with
  | true => exact ⟨Contiguous.nil _, by simp⟩
  | false =>
    simp only [Bool.false_eq_true, if_false, h.contiguous.filter_ge (Nat.zero_lt_of_lt hnext)]
    refine ⟨?_, fun e he => h.paired e (mem_of_mem_drop (mem_of_mem_take he))⟩
    have := (h.contiguous.drop (next - 1 - c.snapshotIndex)).take maxAppendEntriesBatch
    rwa [show c.snapshotIndex + (next - 1 - c.snapshotIndex) = next - 1 by omega] at this

theorem Shaped.compactTo [StateMachine C S] (h : Shaped c) {newIndex : Nat}
    (hbase : c.snapshotIndex < newIndex) : Shaped (c.compactTo newIndex) := by
  have hlog := h.contiguous.filter_lt newIndex
  have hconfig := Ledger.configAt_eq h.contiguous newIndex
  have hlearners := Ledger.learnersAt_eq h.contiguous h.paired newIndex
  have hsplit := take_append_drop (newIndex - c.snapshotIndex) c.log
  refine
    { h with
      contiguous := ?_
      paired := fun e he => h.paired e (mem_filter.mp he).1
      config := ?_, learners := ?_
      bare := fun hzero => absurd hzero (by change newIndex ≠ 0; omega)
      based := fun _ => ⟨rfl, rfl⟩ }
  · change Contiguous newIndex (c.log.filter _)
    rw [hlog]
    have := h.contiguous.drop (newIndex - c.snapshotIndex)
    rwa [Nat.add_sub_cancel' hbase.le] at this
  · change c.config = latest (·.config) (c.configAt newIndex) (c.log.filter _)
    rw [hlog, hconfig, ← latest_append, hsplit, h.config]
  · change c.learners = latest (·.learners) (c.learnersAt newIndex) (c.log.filter _)
    rw [hlog, hlearners, ← latest_append, hsplit, h.learners]

theorem Shaped.install {config learners : Option (Finset N)} (hincoming : c.incomingSnapshot = none)
    (hinc : 0 < inc.lastIndex) (hconfig : config.isSome = true) (hlearners : learners.isSome = true) :
    Shaped (c.install inc config learners) := by
  have hshaped : Shaped (Vital.recomputeConfig { c with
      snapshotIndex := inc.lastIndex, snapshotTerm := inc.lastTerm, lastApplied := inc.lastIndex,
      commitIndex := inc.lastIndex
      log := [], applied := [], snapshotDirty := true, snapshotConfig := config
      snapshotLearners := learners }) :=
    Shaped.recomputeConfig (Contiguous.nil _) (by simp)
      (fun hzero => absurd hzero (Nat.pos_iff_ne_zero.mp hinc)) (fun _ => ⟨hconfig, hlearners⟩)
      (by simp [hincoming])
  unfold Vital.install
  dsimp only
  split <;> exact { hshaped with }

variable [StateMachine C S] {In : N → RaftMsg N C → Prop} {G : SnapshotRules N C S}

theorem Shaped.apply (h : Shaped c) : Shaped c.apply := by
  obtain ⟨_, _, _, _, _, heq⟩ := c.apply_eq
  rw [heq]
  exact { h with }

theorem Shaped.followCommit (h : Shaped c) (leaderCommit idx : Nat) :
    Shaped (c.followCommit leaderCommit idx) := by
  unfold Vital.followCommit
  split
  · exact Shaped.apply ({ h with })
  · exact h

/-- The image that a chunk leaves in the buffer has a positive index. -/
theorem reassemble_lastIndex {incoming : Option IncomingSnapshot} {lastIndex lastTerm offset : Nat}
    {data : Bytes} {total : Nat} (h : reassemble incoming lastIndex lastTerm offset data total = some inc) :
    inc.lastIndex = lastIndex ∧ inc.lastTerm = lastTerm ∨
      ∃ old, incoming = some old ∧ inc.lastIndex = old.lastIndex ∧ inc.lastTerm = old.lastTerm := by
  unfold reassemble at h
  split at h
  · rename_i old hold
    have hinc : inc.lastIndex = old.lastIndex ∧ inc.lastTerm = old.lastTerm := by
      split at h <;> cases h <;> exact ⟨rfl, rfl⟩
    unfold openImage at hold
    split at hold
    · cases hold
      exact .inl hinc
    · exact .inr ⟨old, hold, hinc⟩
  · cases h

omit [StateMachine C S] in
theorem Shaped.emits (h : Shaped c) {o : Out N C} (ho : c.Emits o) : o.2.Shaped := by
  obtain ⟨dst, msg⟩ := o
  cases msg with
  | appendEntries =>
    obtain ⟨_, next, empty, hnext, heq⟩ := ho
    rw [heq]
    exact h.appendMsg hnext empty
  | installSnapshot =>
    obtain ⟨_, hbase, _, _, rfl, _, rfl, rfl⟩ := ho
    exact ⟨hbase, h.based hbase⟩
  | _ => trivial

/-- Every move keeps the shape and sends messages of the right shape. -/
theorem Shaped.move {d : Vital N C S} {sent : List (Out N C)} (hin : ∀ s m, In s m → m.Shaped)
    (h : Shaped c) (hmove : Move In G c d sent) : Shaped d ∧ ∀ o ∈ sent, o.2.Shaped := by
  cases hmove with
  | emit o hemits =>
    refine ⟨h, fun x hx => ?_⟩
    rw [mem_singleton.mp hx]
    exact h.emits hemits
  | lead m hrole hmajority hm =>
    refine ⟨Shaped.pushEntry ?_ rfl rfl, by simp⟩
    exact { h with }
  | append m command config learners hrole hmay hm =>
    have hpaired : (c.ownEntry command config learners).Paired := by
      unfold Vital.MayPropose at hmay
      split at hmay
      · rfl
      · rfl
      · exact hmay.elim
    have hpush := h.pushEntry rfl hpaired
    exact ⟨{ hpush with }, by simp⟩
  | apply hrole => exact ⟨h.apply, by simp⟩
  | accept sender leader prev prevTerm entries leaderCommit index needs check applied hmsg hrole hprev
      hmatch hindex =>
      obtain ⟨hcontiguous, hpaired⟩ := hin _ _ hmsg
      have hreach : prev ≤ c.lastLogIndex := by
        rcases hmatch with rfl | ⟨hle, _⟩
        · exact Nat.zero_le _
        · exact hle
      obtain ⟨hshaped, _⟩ := h.foldl_appendStep hreach hcontiguous hpaired
      refine ⟨hshaped.followCommit _ _, fun o ho => ?_⟩
      rw [mem_singleton.mp ho]
      trivial
  | ackBase =>
    refine ⟨h, fun o ho => ?_⟩
    rw [mem_singleton.mp ho]
    trivial
  | chunk sender leader lastIndex lastTerm offset data total done config learners hmsg =>
    refine ⟨{ h with incoming := fun inc hinc => ?_ }, by simp⟩
    rcases reassemble_lastIndex hinc with ⟨hlast, _⟩ | ⟨old, hold, hlast, _⟩
    · rw [hlast]
      exact (hin _ _ hmsg).1
    · rw [hlast]
      exact h.incoming old hold
  | dropImage => exact ⟨{ h with incoming := by simp }, by simp⟩
  | install sender leader inc lastIndex lastTerm offset data total done config learners metadata hmsg
      hrole hinc hlast hrules =>
      obtain ⟨_, hconfig, hlearners⟩ := hin _ _ hmsg
      refine ⟨Shaped.install rfl (h.incoming inc hinc) hconfig hlearners, fun o ho => ?_⟩
      rw [mem_singleton.mp ho]
      trivial
  | compact newIndex hbase hindex hrules => exact ⟨h.compactTo hbase, by simp⟩
  | _ => exact ⟨{ h with }, by simp⟩

end AnimusDb.Raft
