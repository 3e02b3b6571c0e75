import AnimusDb.GroupWal

/-! The durable watermark. `mark_durable_through` raises it and `log_truncate` lowers it; an install
leaves it alone, so it stays within the log only where no install goes below it. Under that
condition what lies below the watermark is synced, a leader applies only synced entries, and a
follower whose storage is full acknowledges only synced entries. -/

open QuorumSets LogConsensus List Option

namespace AnimusDb.Raft

variable {N C S : Type} [LinearOrder N]

/-- The watermark lies within the log, and what lies below it is among the synced entries. -/
structure Durable (synced : List (LogEntry N C)) (c : Vital N C S) : Prop where
  bound : c.durableIndex ≤ c.lastLogIndex
  covered : ∀ e ∈ c.log, e.index ≤ c.durableIndex → e ∈ synced

variable {In : N → RaftMsg N C → Prop} {G : SnapshotRules N C S} {sent : List (Out N C)}
  {config learners : Option (Finset N)}

section Steps

variable {synced : List (LogEntry N C)} {c : Vital N C S}

theorem Durable.install {inc : IncomingSnapshot} (hbound : c.durableIndex ≤ inc.lastIndex) :
    Durable synced (c.install inc config learners) := by
  unfold Vital.install
  dsimp only
  split <;> exact ⟨hbound, fun e he => by cases he⟩

variable (h : Durable synced c)

include h

theorem Durable.pushEntry {e : LogEntry N C} (hindex : c.lastLogIndex < e.index) :
    Durable synced (c.pushEntry e) where
  bound := by
    rw [Vital.pushEntry_lastLogIndex, Vital.pushEntry_eq]
    exact h.bound.trans hindex.le
  covered := by
    rw [Vital.pushEntry_eq]
    intro x hx hle
    rcases mem_append.mp hx with hx | hx
    · exact h.covered x hx hle
    · rw [mem_singleton.mp hx] at hle
      exact absurd (h.bound.trans_lt hindex) (not_lt.mpr hle)

theorem Durable.logTruncate (keep : Nat) : Durable synced (c.logTruncate keep) where
  bound := Nat.min_le_right _ _
  covered e he hle := h.covered e (mem_of_mem_take he) (hle.trans (Nat.min_le_left _ _))

theorem Durable.appendStep (hshaped : Shaped c) {idx : Nat} {e : LogEntry N C} (hindex : e.index = idx + 1)
    (hidx : idx ≤ c.lastLogIndex) : Durable synced (Vital.appendStep (c, idx) e).1 := by
  have hlast := hshaped.lastLogIndex
  simp only [Vital.appendStep]
  split
  · split
    · split
      · exact { h with }
      · rename_i hin _ hbase
        refine (h.logTruncate _).pushEntry ?_
        rw [hshaped.logTruncate_lastLogIndex _ (by omega), hindex]
        omega
    · exact h
  · rename_i hout
    exact h.pushEntry (by omega)

theorem Durable.foldl_appendStep (hshaped : Shaped c) {prev : Nat} {entries : List (LogEntry N C)}
    (hprev : prev ≤ c.lastLogIndex)
    (hentries : Contiguous prev entries) (hpaired : ∀ e ∈ entries, e.Paired) :
    Durable synced (entries.foldl Vital.appendStep (c, prev)).1 := by
  induction entries generalizing c prev with
  | nil => exact h
  | cons e rest ih =>
    obtain ⟨hindex, hrest⟩ := hentries.cons
    obtain ⟨hkept, hidx, hreach⟩ := hshaped.appendStep hprev hindex (hpaired e mem_cons_self)
    have hdurable := h.appendStep hshaped hindex hprev
    rw [foldl_cons]
    generalize Vital.appendStep (c, prev) e = acc at hkept hidx hreach hdurable
    obtain ⟨d, idx⟩ := acc
    dsimp only at hkept hidx hreach hdurable
    subst hidx
    exact ih hdurable hkept hreach hrest fun x hx => hpaired x (mem_cons_of_mem _ hx)

theorem Durable.compactTo [StateMachine C S] (hshaped : Shaped c) {newIndex : Nat}
    (hbase : c.snapshotIndex < newIndex) : Durable synced (c.compactTo newIndex) where
  bound := by
    rw [(hshaped.compactTo hbase).lastLogIndex]
    change c.durableIndex ≤ newIndex + (c.log.filter _).length
    have hbound := h.bound
    rw [hshaped.lastLogIndex] at hbound
    rw [hshaped.contiguous.filter_lt, length_drop]
    omega
  covered e he hle := h.covered e (mem_filter.mp he).1 hle

variable [StateMachine C S]

theorem Durable.apply : Durable synced c.apply := by
  obtain ⟨_, _, _, _, _, heq⟩ := c.apply_eq
  rw [heq]
  exact { h with }

theorem Durable.followCommit (leaderCommit idx : Nat) : Durable synced (c.followCommit leaderCommit idx) := by
  unfold Vital.followCommit
  split
  · exact Durable.apply (c := { c with commitIndex := min leaderCommit idx }) { h with }
  · exact h

/-- Every move keeps the watermark sound, if installs do not go below it. -/
theorem Durable.move {d : Vital N C S} (hin : ∀ s m, In s m → m.Shaped)
    (hrules : ∀ c inc lastIndex, G.install c inc lastIndex → c.durableIndex ≤ inc.lastIndex)
    (hshaped : Shaped c) (hmove : Move In G c d sent) : Durable synced d := by
  cases hmove with
  | lead =>
    refine Durable.pushEntry ?_ (Nat.lt_succ_self _)
    exact { h with }
  | append m command config learners =>
    exact { h.pushEntry (Nat.lt_succ_self c.lastLogIndex) with }
  | apply => exact h.apply
  | accept _ _ prev _ entries _ _ _ _ _ hmsg _ _ hmatch =>
    obtain ⟨hcontiguous, hpaired⟩ := hin _ _ hmsg
    have hreach : prev ≤ c.lastLogIndex := by
      rcases hmatch with rfl | ⟨hle, _⟩
      · exact Nat.zero_le _
      · exact hle
    exact (h.foldl_appendStep hshaped hreach hcontiguous hpaired).followCommit _ _
  | install _ _ inc lastIndex _ _ _ _ _ _ _ _ _ _ _ _ hmeets =>
    exact Durable.install (hrules c inc lastIndex hmeets)
  | compact _ hbase => exact h.compactTo hshaped hbase
  | _ => exact { h with }

end Steps

section Leader

variable [StateMachine C S]

theorem Vital.applyTimes_lastApplied (steps : Nat) (c : Vital N C S) :
    (Vital.applyTimes steps c).lastApplied ≤ c.lastApplied + steps := by
  induction steps generalizing c with
  | zero => exact le_rfl
  | succ steps ih =>
    have hone : c.applyOne.lastApplied ≤ c.lastApplied + 1 := by
      unfold Vital.applyOne
      dsimp only
      split
      · exact Nat.le_succ _
      · split
        · exact Nat.le_succ _
        · split <;> exact le_rfl
    have := ih c.applyOne
    rw [Vital.applyTimes]
    omega

theorem Vital.apply_lastApplied (c : Vital N C S) :
    c.apply.lastApplied ≤ max c.lastApplied c.applyFrontier := by
  have := c.applyTimes_lastApplied (c.applyFrontier - c.lastApplied)
  rw [Vital.apply]
  omega

/-- The two messages by which a leader moves a follower's log. -/
def RaftMsg.IsAppend : RaftMsg N C → Prop
  | .appendEntries _ _ _ _ _ _ => True
  | .installSnapshot _ _ _ _ _ _ _ _ _ _ => True
  | _ => False

/-- Where no leader's message is read, entries are applied up to the watermark only. -/
theorem Move.lastApplied_le {c d : Vital N C S} (hin : ∀ s m, In s m → ¬ m.IsAppend) (hmove : Move In G c d sent) :
    d.lastApplied ≤ max c.lastApplied d.durableIndex ∧ d.durableIndex = c.durableIndex := by
  cases hmove with
  | lead | append m command config learners =>
    rw [Vital.pushEntry_eq]
    exact ⟨le_max_left _ _, rfl⟩
  | apply hrole =>
    have hle := c.apply_lastApplied
    obtain ⟨_, _, _, _, _, heq⟩ := c.apply_eq
    have hdurable : c.apply.durableIndex = c.durableIndex := by rw [heq]
    have hfrontier : c.applyFrontier ≤ c.durableIndex := by
      rw [Ledger.applyFrontier, if_pos hrole]
      exact Nat.min_le_right _ _
    exact ⟨by omega, hdurable⟩
  | accept _ _ _ _ _ _ _ _ _ _ hmsg | install _ _ _ _ _ _ _ _ _ _ _ _ hmsg =>
    exact absurd trivial (hin _ _ hmsg)
  | _ => exact ⟨le_max_left _ _, rfl⟩

theorem Moves.lastApplied_le {c d : Vital N C S} (hin : ∀ s m, In s m → ¬ m.IsAppend)
    (hmoves : Moves In G c d sent) : d.lastApplied ≤ max c.lastApplied d.durableIndex := by
  induction hmoves with
  | refl => exact le_max_left _ _
  | tail _ hmove ih =>
    obtain ⟨hle, hdurable⟩ := hmove.lastApplied_le hin
    omega

namespace RaftCore

variable (c : RaftCore N C S) {term prev prevTerm commit entropy lastIndex lastTerm offset total : Nat}
  {leader : N} {entries : List (LogEntry N C)} {now : Nanos} {data : Bytes} {done : Bool}

/-- A core that still leads after a leader's message has not been touched by it. -/
theorem handleAppendEntries_leader
    (hrole : (c.handleAppendEntries term leader prev prevTerm entries commit now entropy).1.role = .leader) :
    (c.handleAppendEntries term leader prev prevTerm entries commit now entropy).1.toVital = c.toVital := by
  have hfollow : ((c.hear leader).followLeader leader now entropy).role = .follower := rfl
  unfold handleAppendEntries at hrole ⊢
  dsimp only at hrole ⊢
  split
  · rfl
  rename_i hterm
  exfalso
  rw [if_neg hterm] at hrole
  generalize (c.hear leader).followLeader leader now entropy = d at hfollow hrole
  split at hrole
  · rw [hfollow] at hrole
    cases hrole
  split at hrole
  · rw [hfollow] at hrole
    cases hrole
  · rw [(d.acceptEntries_spec leader prev entries commit hfollow).1, Vital.followCommit_role,
      (Vital.foldl_appendStep_frame entries d.toVital prev).1, hfollow] at hrole
    cases hrole

theorem completeInstall_role (inc : IncomingSnapshot) :
    (c.completeInstall inc leader config learners).1.role = c.role := by
  have hinstall (v : Vital N C S) : (v.install inc config learners).role = v.role := by
    unfold Vital.install
    dsimp only
    split <;> rfl
  unfold completeInstall
  dsimp only
  split
  · rw [install, refreshRemovedFlag_toVital, hinstall]
    rfl
  · split
    · rw [install, refreshRemovedFlag_toVital, hinstall]
      rfl
    · rfl

theorem handleInstallSnapshot_leader
    (hrole : (c.handleInstallSnapshot term leader lastIndex lastTerm offset data total done config
      learners now entropy).1.role = .leader) :
    (c.handleInstallSnapshot term leader lastIndex lastTerm offset data total done config learners
      now entropy).1.toVital = c.toVital := by
  have hfollow : ((c.hear leader).followLeader leader now entropy).role = .follower := rfl
  unfold handleInstallSnapshot at hrole ⊢
  dsimp only at hrole ⊢
  split
  · rfl
  rename_i hterm
  exfalso
  rw [if_neg hterm] at hrole
  generalize (c.hear leader).followLeader leader now entropy = d at hfollow hrole
  split at hrole
  · exact absurd (hfollow.symm.trans hrole) (by simp)
  split at hrole
  · rw [completeInstall_role] at hrole
    exact absurd (hfollow.symm.trans hrole) (by simp)
  · exact absurd (hfollow.symm.trans hrole) (by simp)

/-- `handle` is the dispatch of a core that differs from the stepped-down one in quiescence only. -/
theorem handle_eq (sender : N) (msg : RaftMsg N C) (now : Nanos) (entropy : Nat) (hmsg : msg.IsAppend) :
    ∃ d : RaftCore N C S, d.toVital = (c.stepDownFor msg).toVital ∧ d.toEngine = c.toEngine ∧
      (c.handle sender msg now entropy).1.toVital = (d.dispatch sender msg now entropy).1.toVital ∧
      (c.handle sender msg now entropy).1.toEngine = (d.dispatch sender msg now entropy).1.toEngine ∧
      (c.handle sender msg now entropy).2 = (d.dispatch sender msg now entropy).2 := by
  have hlease : leaseIgnores { c with nowHint := now } now msg = none := by
    cases msg <;> first | rfl | exact hmsg.elim
  have hstep : ((stepDownFor { c with nowHint := now } msg).toVital = (c.stepDownFor msg).toVital) ∧
      (stepDownFor { c with nowHint := now } msg).toEngine = c.toEngine := by
    unfold stepDownFor
    split <;> exact ⟨rfl, rfl⟩
  have harm (e : RaftCore N C S) : ((e.wake now).armLeaseGrace now).toVital = e.toVital ∧
      ((e.wake now).armLeaseGrace now).toEngine = e.toEngine := by
    unfold armLeaseGrace
    split <;> exact ⟨rfl, rfl⟩
  simp only [handle, hlease]
  generalize stepDownFor { c with nowHint := now } msg = d at hstep
  obtain ⟨hvital, hengine⟩ := hstep
  unfold handleAwake
  split
  · refine ⟨d, hvital, hengine, ?_, ?_, rfl⟩
    all_goals
      dsimp only
      split
      · rfl
    · exact (harm _).1
    · exact (harm _).2
  split
  · refine ⟨d, hvital, hengine, ?_, ?_, rfl⟩
    all_goals
      dsimp only
      split <;> rfl
  · exact ⟨d.unquiesce now, (d.unquiesce_toVital now).trans hvital, (d.unquiesce_toEngine now).trans hengine,
      rfl, rfl, rfl⟩

/-- A core that still leads after a leader's message has not been touched by it. -/
theorem handle_leader {sender : N} {msg : RaftMsg N C} (hmsg : msg.IsAppend)
    (hrole : (c.handle sender msg now entropy).1.role = .leader) :
    (c.handle sender msg now entropy).1.toVital = c.toVital := by
  obtain ⟨d, hvital, _, hresult, _, _⟩ := c.handle_eq sender msg now entropy hmsg
  have hdispatch : (d.dispatch sender msg now entropy).1.toVital = d.toVital := by
    rw [hresult] at hrole
    cases msg with
    | appendEntries => exact d.handleAppendEntries_leader hrole
    | installSnapshot => exact d.handleInstallSnapshot_leader hrole
    | _ => exact hmsg.elim
  rw [hresult, hdispatch, hvital] at hrole ⊢
  unfold stepDownFor at hrole ⊢
  split
  · rename_i hlater
    rw [if_pos hlater] at hrole
    cases hrole
  · rfl

/-- A leader applies entries up to the watermark only, in every operation. -/
theorem perform_lastApplied_le (op : Op N C) (hrole : (c.perform op).1.role = .leader) :
    (c.perform op).1.lastApplied ≤ max c.lastApplied (c.perform op).1.durableIndex := by
  have hmoves := c.perform_moves op (c.snapshotsMeet_noRules op)
  cases op with
  | handle sender msg now entropy =>
    by_cases hmsg : msg.IsAppend
    · have hsame := c.handle_leader hmsg hrole
      rw [perform, hsame]
      exact le_max_left _ _
    · refine hmoves.lastApplied_le fun s m hreads => ?_
      obtain ⟨_, _, heq⟩ := hreads
      cases heq
      exact hmsg
  | _ =>
    refine hmoves.lastApplied_le fun s m hreads => ?_
    obtain ⟨_, _, heq⟩ := hreads
    cases heq

end RaftCore

end Leader

variable {index applied : Nat} {needs check : Bool}

section Acknowledgement

variable [StateMachine C S]

/-- The base that a follower with full storage acknowledges is durable. -/
def RaftCore.baseAckDurable (c : RaftCore N C S) : RaftMsg N C → Bool
  | .appendEntries term _ prevLogIndex _ _ _ =>
    !(c.storageFull && decide (c.currentTerm ≤ term) && decide (prevLogIndex < c.snapshotIndex)) ||
      decide (c.snapshotIndex ≤ c.durableIndex)
  | _ => true

/-- Entries are acknowledged in the term that the core is in afterwards, and with full storage only what is
durable. -/
theorem RaftCore.handleAppendEntries_ack (c : RaftCore N C S) {term prev prevTerm commit entropy t : Nat}
    {leader dst : N} {entries : List (LogEntry N C)} {now : Nanos} {r : RaftCore N C S × List (Out N C)}
    (hr : c.handleAppendEntries term leader prev prevTerm entries commit now entropy = r)
    (hack : (dst, .appendEntriesResp t true index needs check applied) ∈ r.2) : t = r.1.currentTerm ∧
      (c.baseAckDurable (.appendEntries term leader prev prevTerm entries commit) = true →
        r.1.storageFull = true → index ≤ r.1.durableIndex) := by
  have hfollow : ((c.hear leader).followLeader leader now entropy).role = .follower := rfl
  have hengine : ((c.hear leader).followLeader leader now entropy).toEngine = c.toEngine := rfl
  have hdurable : ((c.hear leader).followLeader leader now entropy).durableIndex = c.durableIndex :=
    rfl
  have hsnapshot : ((c.hear leader).followLeader leader now entropy).snapshotIndex = c.snapshotIndex := rfl
  unfold RaftCore.handleAppendEntries at hr
  dsimp only at hr
  split at hr
  · subst hr
    simp [RaftCore.appendResp] at hack
  rename_i hterm
  generalize (c.hear leader).followLeader leader now entropy = d at *
  split at hr
  · rename_i hprev
    subst hr
    simp only [RaftCore.appendResp, mem_singleton, Prod.mk.injEq, RaftMsg.appendEntriesResp.injEq] at hack
    obtain ⟨_, rfl, _, rfl, _⟩ := hack
    refine ⟨rfl, fun hbase hfull => ?_⟩
    rw [hengine] at hfull
    rw [hsnapshot] at hprev
    have hterm' : c.currentTerm ≤ term := not_lt.mp hterm
    simp only [RaftCore.baseAckDurable, hfull, hterm', hprev, decide_true, Bool.and_self,
      Bool.not_true, Bool.false_or, decide_eq_true_eq] at hbase
    rw [hsnapshot, hdurable]
    exact hbase
  split at hr
  · subst hr
    simp [RaftCore.appendResp] at hack
  obtain ⟨hvital, _, _, _, _, houts, _, hcap⟩ :=
    d.acceptEntries_spec leader prev entries commit hfollow
  rw [hr] at hvital houts hcap
  rw [houts] at hack
  simp only [mem_singleton, Prod.mk.injEq, RaftMsg.appendEntriesResp.injEq] at hack
  obtain ⟨_, rfl, _, rfl, _⟩ := hack
  refine ⟨?_, fun _ => hcap⟩
  rw [hvital, Vital.followCommit_currentTerm, (Vital.foldl_appendStep_frame entries d.toVital prev).2]

/-- Only an answer to `AppendEntries` acknowledges entries. -/
theorem Move.not_ack {c d : Vital N C S}
    (hin : ∀ s t l p pt es k, ¬ In s (.appendEntries t l p pt es k)) (hmove : Move In G c d sent) :
    ∀ o ∈ sent, ∀ t index needs check applied, o.2 ≠ .appendEntriesResp t true index needs check applied := by
  intro o ho t index needs check applied heq
  cases hmove with
  | emit o' hemits =>
    rw [mem_singleton] at ho
    subst ho
    unfold Vital.Emits at hemits
    rw [heq] at hemits
    exact Bool.false_ne_true hemits.symm
  | accept _ _ _ _ _ _ _ _ _ _ hmsg | ackBase _ _ _ _ _ _ _ _ _ hmsg => exact hin _ _ _ _ _ _ _ hmsg
  | install =>
    rw [mem_singleton] at ho
    subst ho
    cases heq
  | _ => simp at ho

namespace RaftCore

variable (c : RaftCore N C S)

theorem perform_ack_reads (op : Op N C) {dst : N} {t : Nat}
    (hack : (dst, .appendEntriesResp t true index needs check applied) ∈ (c.perform op).2) :
    ∃ s t l p pt es k, op.Reads s (.appendEntries t l p pt es k) := by
  by_contra hreads
  have hmoves := c.perform_moves op (c.snapshotsMeet_noRules op)
  have hnone := (Moves.preserves (P := fun _ => True) (Q := fun o => ∀ t index needs check applied,
      o.2 ≠ .appendEntriesResp t true index needs check applied)
    (fun _ _ _ _ hmove => ⟨trivial, hmove.not_ack fun s t l p pt es k h =>
      hreads ⟨s, t, l, p, pt, es, k, h⟩⟩) hmoves trivial).2
  exact hnone _ hack _ _ _ _ _ rfl

/-- What `handleAppendEntries_ack` says, of every operation. -/
theorem perform_ack (op : Op N C) {dst : N} {t : Nat}
    (hack : (dst, .appendEntriesResp t true index needs check applied) ∈ (c.perform op).2) :
    t = (c.perform op).1.currentTerm ∧ ((∀ sender msg, op.Reads sender msg → c.baseAckDurable msg = true) →
        (c.perform op).1.storageFull = true → index ≤ (c.perform op).1.durableIndex) := by
  obtain ⟨s, t', l, p, pt, es, k, now, entropy, rfl⟩ := c.perform_ack_reads op hack
  obtain ⟨d, hvital, hengine, hresult, hresultEngine, houts⟩ :=
    c.handle_eq s (.appendEntries t' l p pt es k) now entropy trivial
  rw [perform] at hack ⊢
  rw [houts] at hack
  rw [hresult, hresultEngine]
  obtain ⟨hterm, hle⟩ := d.handleAppendEntries_ack rfl hack
  refine ⟨hterm, fun hbase => hle ?_⟩
  have hbase := hbase s _ ⟨now, entropy, rfl⟩
  simp only [baseAckDurable] at hbase ⊢
  rw [hvital, hengine]
  unfold stepDownFor
  split
  · rename_i hlater
    simp only [RaftMsg.isPreVote, RaftMsg.term, Bool.not_false, Bool.true_and] at hlater
    have hle := (of_decide_eq_true hlater).le
    simp only [hle, decide_true, Bool.and_true] at hbase
    change (!(c.storageFull && decide (t' ≤ t') && decide (p < c.snapshotIndex)) ||
      decide (c.snapshotIndex ≤ c.durableIndex)) = true
    simp only [le_refl, decide_true, Bool.and_true]
    exact hbase
  · exact hbase

end RaftCore

end Acknowledgement

variable {ev : Event N C}

variable [StateMachine C S] (g : Group N C S)

/-- The packet that an event delivers. -/
def Group.delivery : Event N C → Option (Packet N C)
  | .deliver position _ _ => g.net[position]?
  | _ => none

/-- The install that a message completes does not go below the watermark. -/
def RaftCore.installKeepsDurable (c : RaftCore N C S) (msg : RaftMsg N C) : Bool :=
  (c.installs msg).all fun inc => decide (c.durableIndex ≤ inc.lastIndex)

/-- No delivery installs an image below its receiver's watermark. -/
def Group.KeepsWatermark (ev : Event N C) : Prop :=
  (g.delivery ev).all (fun p => (g.replica p.dst).core.installKeepsDurable p.msg) = true

/-- No delivery installs an image below its receiver's watermark, or makes a receiver with full
storage acknowledge a base that is not durable. -/
def Group.KeepsDurable (ev : Event N C) : Prop :=
  (g.delivery ev).all (fun p =>
    (g.replica p.dst).core.installKeepsDurable p.msg && (g.replica p.dst).core.baseAckDurable p.msg) = true

instance Group.decidableKeepsWatermark (g : Group N C S) (ev : Event N C) :
    Decidable (g.KeepsWatermark ev) := by
  unfold Group.KeepsWatermark
  infer_instance

instance Group.decidableKeepsDurable (g : Group N C S) (ev : Event N C) : Decidable (g.KeepsDurable ev) := by
  unfold Group.KeepsDurable
  infer_instance

theorem Group.KeepsDurable.keepsWatermark {g : Group N C S} (h : g.KeepsDurable ev) :
    g.KeepsWatermark ev := by
  unfold Group.KeepsDurable at h
  unfold Group.KeepsWatermark
  cases hdelivery : g.delivery ev with
  | none => rfl
  | some p =>
    rw [hdelivery, all_some, Bool.and_eq_true] at h
    exact h.1

/-- The rules of installs that do not go below the watermark. -/
def durableRules : SnapshotRules N C S where
  compact := True
  install c inc _ := c.durableIndex ≤ inc.lastIndex
  stable _ _ _ _ _ _ _ h := h

theorem RaftCore.installKeepsDurable_meets {c : RaftCore N C S} {msg : RaftMsg N C}
    (h : c.installKeepsDurable msg = true) : c.InstallMeets durableRules msg := by
  cases msg with
  | installSnapshot =>
    intro inc hinc
    rw [RaftCore.installKeepsDurable, hinc] at h
    have hle : c.durableIndex ≤ inc.lastIndex := of_decide_eq_true h
    exact hle
  | _ => trivial

/-- The watermark of a replica is sound against its own WAL. -/
def Replica.Durable (r : Replica N C S) : Prop :=
  Raft.Durable (PersistedState.replay r.wal).log r.core.toVital

variable {r : Replica N C S} {boot : Bootstrap N}

theorem Replica.Durable.perform {n : N} (hkept : r.Kept boot n) (h : r.Durable) {op : Op N C}
    (hop : op.Shaped) (hmeets : r.core.SnapshotsMeet durableRules op) : (r.perform op).Durable := by
  have hmoves := r.core.perform_moves op hmeets
  exact (Moves.preserves
    (P := fun v => Shaped v ∧ Raft.Durable (PersistedState.replay r.wal).log v) (Q := fun _ => True)
    (fun a b sent ha hmove =>
      ⟨⟨(ha.1.move (fun _ _ hr => hop.reads hr) hmove).1,
        ha.2.move (fun _ _ hr => hop.reads hr) (fun _ _ _ hinstall => hinstall) ha.1 hmove⟩,
        fun _ _ => trivial⟩) hmoves ⟨hkept.shaped, h⟩).1.2

omit [StateMachine C S] in
theorem Replica.Durable.persist {n : N} (hkept : r.Kept boot n) (h : r.Durable) (rewrite : Bool)
    (hrewrite : r.rewriteOwed = true → rewrite = true) : (r.persist rewrite).Durable := by
  have hsynced := hkept.persist_synced rewrite hrewrite
  obtain ⟨_, _, _, hcore, _, _⟩ := r.persist_core rewrite
  refine ⟨?_, fun e he _ => ?_⟩
  · rw [hcore]
    exact ({ h with }).bound
  · rw [hsynced.mirrors.log]
    exact he

theorem Replica.Durable.crash {n : N} (hkept : r.Kept boot n) (now : Nanos) (entropy : Nat) :
    (r.crash boot now entropy).Durable := by
  have hmirrors := boot.recover_mirrors r.core.id r.wal now entropy hkept.stored
  refine ⟨le_rfl, fun e he _ => ?_⟩
  change e ∈ (PersistedState.replay r.wal).log
  rw [hmirrors.log]
  exact he

theorem Replica.Durable.markDurable (h : r.Durable) (hcovers : r.Covers index) :
    ({ r with core := r.core.markDurableThrough index } : Replica N C S).Durable := by
  obtain ⟨_, _, _, _, _, heq⟩ := r.core.toVital.markDurableThrough_eq index
  have hvital : (r.core.markDurableThrough index).toVital = _ := heq
  refine ⟨?_, fun e he hle => ?_⟩
  · rw [hvital]
    exact max_le h.bound hcovers.1
  · rw [hvital] at he hle
    rcases le_max_iff.mp hle with hle | hle
    · exact h.covered e he hle
    · exact hcovers.2 e he hle

/-- The invariant of a run: every replica keeps its records and its watermark. -/
structure Group.DurableKept (boot : Bootstrap N) (g : Group N C S) : Prop where
  kept : g.Kept boot
  durable : ∀ n, (g.replica n).Durable

variable {g' : Group N C S} {g}

theorem Group.DurableKept.start (boot : Bootstrap N) (clock : N → Nanos × Nat) :
    (Group.start boot clock : Group N C S).DurableKept boot :=
  ⟨Group.Kept.start boot clock, fun _ => ⟨le_rfl, fun e he => by cases he⟩⟩

theorem Vital.markDurableThrough_lastApplied (c : Vital N C S) (index : Nat) (hrole : c.role = .leader) :
    (c.markDurableThrough index).lastApplied ≤
    max c.lastApplied (c.markDurableThrough index).durableIndex := by
  unfold Vital.markDurableThrough
  split
  · have hle := Vital.apply_lastApplied { c with durableIndex := index }
    obtain ⟨_, _, _, _, _, heq⟩ := Vital.apply_eq { c with durableIndex := index }
    have hdurable : (Vital.apply { c with durableIndex := index }).durableIndex = index := by rw [heq]
    have hfrontier : Ledger.applyFrontier { c.toLedger with durableIndex := index } ≤ index := by
      rw [Ledger.applyFrontier, if_pos (by exact hrole)]
      exact Nat.min_le_right _ _
    rw [hdurable]
    exact hle.trans (max_le_max le_rfl hfrontier)
  · exact le_max_left _ _

variable [DecidableEq C]

theorem Group.DurableKept.step (h : g.DurableKept boot) (hrule : g.KeepsWatermark ev)
    (hstep : g.step boot ev = some g') : g'.DurableKept boot := by
  refine ⟨h.kept.step hstep, Group.step_replicas hstep h.durable fun node _ _ hturn => ?_⟩
  have hnode := h.durable node
  have hkept := h.kept.replicas node
  cases hturn with
  | act hlocal =>
    exact hnode.perform hkept (.of_local hlocal) (RaftCore.snapshotsMeet_of_local _ hlocal trivial)
  | deliver hp =>
    simp only [Group.KeepsWatermark, Group.delivery, hp, all_some] at hrule
    exact hnode.perform hkept (h.kept.net _ (mem_of_getElem? hp)) (RaftCore.installKeepsDurable_meets hrule)
  | drainApply => exact { hnode with }
  | sync hallowed => exact hnode.persist hkept _ hallowed
  | markDurable hcovers => exact hnode.markDurable hcovers
  | crash now entropy => exact .crash hkept now entropy

/-- What the event made of a leader: the entries it newly applied are synced. -/
def Replica.AppliesSynced (before after : Replica N C S) : Prop :=
  after.core.role = .leader → ∀ e ∈ after.core.log, before.core.lastApplied < e.index →
    e.index ≤ after.core.lastApplied → e ∈ (PersistedState.replay after.wal).log

/-- What the event made a replica with full storage send: acknowledgements up to its watermark. -/
def Replica.AcksSynced (before after : Replica N C S) : Prop :=
  after.core.storageFull = true → ∀ p ∈ after.outbox.drop before.outbox.length, ∀ t index needs check applied,
      p.msg = .appendEntriesResp t true index needs check applied → index ≤ after.core.durableIndex

/-- The part of a leader's log that an event newly applied lies below the watermark. -/
theorem Group.step_lastApplied (hstep : g.step boot ev = some g') (n : N)
    (hrole : (g'.replica n).core.role = .leader) :
    (g'.replica n).core.lastApplied ≤ max (g.replica n).core.lastApplied (g'.replica n).core.durableIndex := by
  refine Group.step_replicas hstep (P := fun n r => r.core.role = .leader →
      r.core.lastApplied ≤ max (g.replica n).core.lastApplied r.core.durableIndex)
    (fun n _ => le_max_left _ _) (fun node _ _ hturn hleader => ?_) n hrole
  cases hturn with
  | act | deliver => exact RaftCore.perform_lastApplied_le _ _ hleader
  | drainApply => exact le_max_left _ _
  | sync =>
    obtain ⟨_, _, _, hcore, _, _⟩ := (g.replica node).persist_core _
    rw [hcore]
    exact le_max_left _ _
  | markDurable =>
    refine Vital.markDurableThrough_lastApplied _ _ ?_
    obtain ⟨_, _, _, _, _, heq⟩ := (g.replica node).core.toVital.markDurableThrough_eq _
    have hvital : ((g.replica node).core.markDurableThrough _).toVital = _ := heq
    dsimp only at hleader
    rw [hvital] at hleader
    exact hleader
  | crash now entropy =>
    have hfollower := boot.recover_role (g.replica node).core.id (g.replica node).wal now entropy
    exact absurd (hfollower.symm.trans hleader) (by simp)

/-- The acknowledgements that an event makes a replica with full storage send. -/
theorem Group.step_acks (hrule : g.KeepsDurable ev) (hstep : g.step boot ev = some g') (n : N) :
    (g.replica n).AcksSynced (g'.replica n) := by
  -- an event that produces no message leaves nothing behind the old outbox
  have hquiet {r r' : Replica N C S} (hout : r'.outbox = r.outbox ∨ r'.outbox = []) : r.AcksSynced r' := by
    intro _ p hp
    rcases hout with hout | hout <;> rw [hout] at hp <;> simp at hp
  have hperform (node : N) (op : Op N C)
      (hbase : ∀ sender msg, op.Reads sender msg → (g.replica node).core.baseAckDurable msg = true) :
      (g.replica node).AcksSynced ((g.replica node).perform op) := by
    intro hfull p hp t index needs check applied hmsg
    simp only [Replica.perform, drop_left] at hp
    obtain ⟨o, ho, rfl⟩ := mem_map.mp hp
    obtain ⟨dst, msg⟩ := o
    cases hmsg
    exact ((g.replica node).core.perform_ack op ho).2 hbase hfull
  refine Group.step_replicas hstep (fun n => hquiet (.inl rfl)) (fun node _ _ hturn => ?_) n
  cases hturn with
  | act hlocal => exact hperform _ _ fun s m hreads => (hlocal s m hreads).elim
  | deliver hp =>
    simp only [Group.KeepsDurable, Group.delivery, hp, all_some, Bool.and_eq_true] at hrule
    refine hperform _ _ fun sender msg hreads => ?_
    obtain ⟨_, _, heq⟩ := hreads
    cases heq
    exact hrule.2
  | drainApply | markDurable => exact hquiet (.inl rfl)
  | crash => exact hquiet (.inr rfl)
  | sync =>
    refine hquiet (.inr ?_)
    unfold Replica.persist
    dsimp only
    split <;> rfl

/-- In every run whose deliveries respect the watermark: it lies within the log and everything below
it is synced, a leader newly applies only synced entries, and a replica with full storage
acknowledges only up to it. -/
theorem durable_watermark_sound (boot : Bootstrap N) (clock : N → Nanos × Nat) (evs : List (Event N C))
    (g : Group N C S) (hmeets : (Group.start boot clock : Group N C S).RunMeets boot Group.KeepsDurable evs)
    (hrun : (Group.start boot clock).run boot evs = some g) :
    (∀ n, (g.replica n).core.durableIndex ≤ (g.replica n).core.lastLogIndex ∧
      ∀ e ∈ (g.replica n).core.log, e.index ≤ (g.replica n).core.durableIndex →
        e ∈ (PersistedState.replay (g.replica n).wal).log) ∧ ∀ ev g', g.KeepsDurable ev →
        g.step boot ev = some g' → ∀ n,
      (g.replica n).AppliesSynced (g'.replica n) ∧ (g.replica n).AcksSynced (g'.replica n) := by
  have hkept : g.DurableKept boot := Group.run_preserves Group.KeepsDurable
    (fun _ _ _ hP hrule hs => hP.step hrule.keepsWatermark hs) (.start boot clock) hmeets hrun
  refine ⟨fun n => ⟨(hkept.durable n).bound, (hkept.durable n).covered⟩, ?_⟩
  intro ev g' hrule hstep n
  refine ⟨fun hrole e he hnew happlied => ?_, Group.step_acks hrule hstep n⟩
  have hle := Group.step_lastApplied hstep n hrole
  exact ((hkept.step hrule.keepsWatermark hstep).durable n).covered e he (by omega)

theorem durable_watermark_sound_offered : ∃ g : Group Nat Command Unit,
      (Group.start duo zeroClock).run duo offerRun = some g ∧ (g.replica 1).core.durableIndex = 2 ∧
      ∀ e ∈ (g.replica 1).core.log, e.index ≤ 2 → e ∈ (PersistedState.replay (g.replica 1).wal).log := by
  have hmeets : (Group.start duo zeroClock : Group Nat Command Unit).RunMeets duo Group.KeepsDurable
    offerRun := by decide +kernel
  obtain ⟨g, hg, hindex⟩ : ∃ g : Group Nat Command Unit, g ∈ (Group.start duo zeroClock).run duo offerRun ∧
      (g.replica 1).core.durableIndex = 2 := by decide +kernel
  have hsound := ((durable_watermark_sound duo zeroClock offerRun g hmeets hg).1 1).2
  rw [hindex] at hsound
  exact ⟨g, hg, hindex, hsound⟩

/-- Delivering the offered image drops replica 1's second entry and leaves the watermark at 2, beyond
the end of its log. -/
theorem durable_watermark_stale : ∃ g : Group Nat Command Unit,
      (Group.start duo zeroClock).run duo (offerRun ++ [.deliver 9 late 0]) = some g ∧
      (g.replica 1).core.lastLogIndex < (g.replica 1).core.durableIndex := by
  simp only [← Option.mem_def]
  decide +kernel

end AnimusDb.Raft
