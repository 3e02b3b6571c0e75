import AnimusDb.RaftMoves

/-! What the bookkeeping of a core leaves alone. Timers, leases, transfer records and the sending
of messages do not touch the vital part; the per-peer resets only forget match indices. -/

open QuorumSets List Option

namespace AnimusDb.Raft

variable {N C S : Type} [LinearOrder N]

namespace RaftCore

variable (c : RaftCore N C S) (peer sender target : N) (now : Nanos) (entropy : Nat) (resend : SnapshotResend)

@[simp] theorem refreshRemovedFlag_toVital : c.refreshRemovedFlag.toVital = c.toVital := by
  unfold refreshRemovedFlag
  split
  · rfl
  · split <;> rfl

@[simp] theorem noteDepartingReply_toVital : (c.noteDepartingReply peer now).toVital = c.toVital := by
  unfold noteDepartingReply
  split <;> rfl

@[simp] theorem departingSendGate_toVital : (c.departingSendGate peer).1.toVital = c.toVital := by
  unfold departingSendGate
  split
  · rfl
  · dsimp only
    split <;> rfl

@[simp] theorem armLeaseGrace_toVital : (c.armLeaseGrace now).toVital = c.toVital := by
  unfold armLeaseGrace
  split <;> rfl

@[simp] theorem handleClusterProbeResp_toVital (term committedIndex : Nat) (config : Finset N) (heard : Bool) :
    (c.handleClusterProbeResp sender term committedIndex config heard).toVital = c.toVital := by
  unfold handleClusterProbeResp
  split <;> rfl

@[simp] theorem tickClusterCheck_toVital : (c.tickClusterCheck now entropy).1.toVital = c.toVital := by
  unfold tickClusterCheck
  split
  · split <;> rfl
  · rfl

@[simp] theorem noteContact_toVital (check : Bool) :
    (c.noteContact sender check now).toVital = c.toVital := by
  simp only [noteContact, noteDepartingReply_toVital]
  split_ifs <;> rfl

@[simp] theorem handleQuiesce_toVital (term commitIndex : Nat) :
    (c.handleQuiesce sender term commitIndex).toVital = c.toVital := by
  unfold handleQuiesce
  split <;> rfl

@[simp] theorem transferLeadership_toVital : (c.transferLeadership target now).1.toVital = c.toVital := by
  unfold transferLeadership
  simp only [wake]
  split_ifs <;> simp

@[simp] theorem set_toVital (setting : Setting) : (c.set setting).toVital = c.toVital := by
  cases setting <;> rfl

@[simp] theorem setTiming_toVital (electionBase heartbeat : Nanos) :
    (c.setTiming electionBase heartbeat now entropy).toVital = c.toVital := by
  unfold setTiming
  simp only [resetElectionTimer]
  split_ifs <;> rfl

@[simp] theorem noteLocalActivity_toVital : (c.noteLocalActivity now).toVital = c.toVital := by
  simp only [noteLocalActivity, wake]
  split <;> simp

@[simp] theorem unquiesce_toVital : (c.unquiesce now).toVital = c.toVital := by
  unfold unquiesce
  split
  · simp [wake]
  · rfl

@[simp] theorem unquiesce_toEngine : (c.unquiesce now).toEngine = c.toEngine := by
  unfold unquiesce armLeaseGrace
  split
  · split <;> rfl
  · rfl

@[simp] theorem snapshotChunkFor_toVital : (c.snapshotChunkFor peer resend).1.toVital = c.toVital := by
  unfold snapshotChunkFor
  split
  · rfl
  · dsimp only
    split_ifs <;> rfl

theorem noteRemovedPeers_toVital (oldPeers : List N) (entry : LogEntry N C) :
    (c.noteRemovedPeers oldPeers entry).toVital = c.toVital := by
  unfold noteRemovedPeers
  generalize oldPeers.filter _ = removed
  induction removed generalizing c with
  | nil => rfl
  | cons n rest ih =>
    rw [foldl_cons, ih]
    split <;> rfl

end RaftCore

theorem Vital.pushEntry_eq (c : Vital N C S) (entry : LogEntry N C) : c.pushEntry entry = { c with
        peers := entry.config.elim c.peers fun voters =>
          (ascending voters).filter (fun n => n ≠ c.id)
        clusterSize := entry.config.elim c.clusterSize Finset.card, config := entry.config.getD c.config
        learners := if entry.config.isSome then entry.learners.getD c.learners else c.learners
        pending := c.pending ++ [WalRecord.append entry]
        log := c.log ++ [entry] } := by
  unfold Vital.pushEntry
  cases hconfig : entry.config with
  | none => rfl
  | some voters => rfl

/-- `b` is `a` with some match indices set back to zero. -/
def Vital.Forgets (a b : Vital N C S) : Prop :=
  ∃ m, b = { a with matchIndex := m } ∧ ∀ p, b.peerMatch p = a.peerMatch p ∨ b.peerMatch p = 0

theorem Vital.Forgets.refl (a : Vital N C S) : a.Forgets a :=
  ⟨a.matchIndex, rfl, fun _ => .inl rfl⟩

theorem Vital.Forgets.trans {a b c : Vital N C S} (h₁ : a.Forgets b) (h₂ : b.Forgets c) : a.Forgets c := by
  obtain ⟨m₁, rfl, h₁⟩ := h₁
  obtain ⟨m₂, rfl, h₂⟩ := h₂
  refine ⟨m₂, rfl, fun p => ?_⟩
  rcases h₂ p with h | h
  · rw [h]
    exact h₁ p
  · exact .inr h

theorem Vital.Forgets.eq_zero {a b : Vital N C S} (h : a.Forgets b) {p : N} (hp : a.peerMatch p = 0) :
    b.peerMatch p = 0 := by
  obtain ⟨_, _, h⟩ := h
  rcases h p with h | h
  · rw [h, hp]
  · exact h

theorem Vital.forgets_insert (c : Vital N C S) (p : N) :
    c.Forgets { c with matchIndex := c.matchIndex.insert p 0 } := by
  refine ⟨_, rfl, fun q => ?_⟩
  simp only [Ledger.peerMatch, Std.TreeMap.getElem?_insert]
  split
  · exact .inr rfl
  · exact .inl rfl

theorem Vital.forgets_erase (c : Vital N C S) (p : N) :
    c.Forgets { c with matchIndex := c.matchIndex.erase p } := by
  refine ⟨_, rfl, fun q => ?_⟩
  simp only [Ledger.peerMatch, Std.TreeMap.getElem?_erase]
  split
  · exact .inr rfl
  · exact .inl rfl

theorem RaftCore.foldl_forgets {α : Type} {f : RaftCore N C S → α → RaftCore N C S}
    (hf : ∀ (c : RaftCore N C S) x, c.toVital.Forgets (f c x).toVital) (xs : List α) (c : RaftCore N C S) :
    c.toVital.Forgets (xs.foldl f c).toVital := by
  induction xs generalizing c with
  | nil => exact .refl _
  | cons x rest ih => exact (hf c x).trans (ih (f c x))

/-- A pass that zeroes each peer it visits leaves every visited peer at zero. -/
theorem RaftCore.foldl_zeroes {f : RaftCore N C S → N → RaftCore N C S}
    (hf : ∀ (c : RaftCore N C S) x, c.toVital.Forgets (f c x).toVital) (hzero : ∀ c x, (f c x).peerMatch x = 0)
    (xs : List N) (c : RaftCore N C S) {p : N} (hp : p ∈ xs) : (xs.foldl f c).peerMatch p = 0 := by
  induction xs generalizing c with
  | nil => cases hp
  | cons x rest ih =>
    rcases mem_cons.mp hp with rfl | hp
    · exact (RaftCore.foldl_forgets hf rest _).eq_zero (hzero c p)
    · exact ih _ hp

variable [StateMachine C S] {peer : N} {resend : SnapshotResend} {o : Out N C}

@[simp] theorem RaftCore.forgetSnapshotTransfer_toVital (c : RaftCore N C S) (peer : N) :
    (c.forgetSnapshotTransfer peer).toVital = c.toVital := by
  unfold RaftCore.forgetSnapshotTransfer
  dsimp only
  split <;> rfl

namespace RaftCore

variable (c : RaftCore N C S)

@[simp] theorem replicateTo_toVital (peer : N) (resend : SnapshotResend) :
    (c.replicateTo peer resend).1.toVital = c.toVital := by
  rw [← c.departingSendGate_toVital peer]
  unfold replicateTo
  generalize c.departingSendGate peer = gate
  obtain ⟨c', admitted⟩ := gate
  dsimp only
  split
  · rfl
  split
  · split <;> rfl
  split
  · split <;> simp
  · split
    · rfl
    · split <;> rfl

/-- What `replicate_to` sends is a batch of the leader's log, a chunk of its image or a notice. -/
theorem replicateTo_emits (hrole : c.role = .leader) (ho : o ∈ (c.replicateTo peer resend).2) :
    c.toVital.Emits o := by
  rw [← c.departingSendGate_toVital peer] at hrole ⊢
  unfold replicateTo at ho
  revert ho hrole
  generalize c.departingSendGate peer = gate
  obtain ⟨c', admitted⟩ := gate
  intro hrole ho
  dsimp only at hrole ho ⊢
  split at ho
  · simp at ho
  split at ho
  · simp at ho
  split at ho
  · rename_i hnext
    have hbase : 0 < c'.snapshotIndex := by omega
    split at ho
    · simp only [mem_def, map_eq_some_iff] at ho
      obtain ⟨notice, hnotice, rfl⟩ := ho
      unfold Ledger.removalNoticeFor at hnotice
      split at hnotice
      · cases hnotice
      · cases hnotice
        trivial
    · -- a chunk of the image
      unfold snapshotChunkFor at ho
      split at ho
      · simp at ho
      · dsimp only at ho
        split_ifs at ho
        all_goals
          simp only [mem_def, some.injEq, reduceCtorEq] at ho
        all_goals
          subst ho
          exact ⟨hrole, hbase, rfl, rfl, rfl, rfl, rfl, rfl⟩
  · rename_i hnext
    split at ho
    · simp at ho
    · rename_i empty _
      simp only [mem_def, some.injEq] at ho
      subst ho
      exact ⟨hrole, _, empty, not_le.mp hnext, rfl⟩

@[simp] theorem replicateAll_toVital (c : RaftCore N C S) (targets : List N) :
    (replicateAll resend c targets).1.toVital = c.toVital := by
  induction targets generalizing c with
  | nil => rfl
  | cons peer rest ih =>
    simp only [replicateAll]
    rw [ih, c.replicateTo_toVital]

theorem replicateAll_emits {c : RaftCore N C S} {targets : List N} (hrole : c.role = .leader)
    (ho : o ∈ (replicateAll resend c targets).2) : c.toVital.Emits o := by
  induction targets generalizing c with
  | nil => cases ho
  | cons peer rest ih =>
    have hframe := c.replicateTo_toVital peer resend
    simp only [replicateAll, mem_append, mem_toList] at ho
    rcases ho with ho | ho
    · exact c.replicateTo_emits hrole ho
    · rw [← hframe]
      exact ih (by rw [hframe]; exact hrole) ho

@[simp] theorem broadcastAppend_toVital : (c.broadcastAppend resend).1.toVital = c.toVital := by
  simp only [broadcastAppend, replicateAll_toVital]

theorem broadcastAppend_emits (hrole : c.role = .leader) (ho : o ∈ (c.broadcastAppend resend).2) :
    c.toVital.Emits o := by
  simp only [broadcastAppend, mem_append] at ho
  rcases ho with ho | ho
  · exact replicateAll_emits hrole ho
  · split at ho
    · split at ho
      · simp only [mem_singleton] at ho
        subst ho
        trivial
      · cases ho
    · cases ho

@[simp] theorem replyTo_toVital : (c.replyTo peer resend).1.toVital = c.toVital := by
  simp only [replyTo, replicateTo_toVital]

theorem replyTo_emits (hrole : c.role = .leader) (ho : o ∈ (c.replyTo peer resend).2) :
    c.toVital.Emits o := by
  simp only [replyTo, mem_toList] at ho
  exact c.replicateTo_emits hrole ho

end RaftCore

namespace RaftCore

theorem resetAddedPeer_toVital (entryIndex : Nat) (c : RaftCore N C S) (n : N) :
    (resetAddedPeer entryIndex c n).toVital = { c.toVital with matchIndex := c.matchIndex.insert n 0 } := by
  simp only [resetAddedPeer, forgetSnapshotTransfer_toVital]

variable (c : RaftCore N C S)

theorem forgetPeerProgress_toVital (n : N) :
    (c.forgetPeerProgress n).toVital = { c.toVital with matchIndex := c.matchIndex.erase n } := by
  simp only [forgetPeerProgress, forgetSnapshotTransfer_toVital]

theorem resetRemovedPeer_forgets (n : N) : c.toVital.Forgets (c.resetRemovedPeer n).toVital := by
  unfold resetRemovedPeer
  split
  · exact .refl _
  · rw [c.forgetPeerProgress_toVital]
    exact c.toVital.forgets_erase n

theorem dropDeparting_forgets (peer : N) : c.toVital.Forgets (c.dropDeparting peer).toVital := by
  rw [dropDeparting, forgetPeerProgress_toVital]
  exact c.toVital.forgets_erase peer

theorem expireStaleDeparting_forgets (now : Nanos) :
    c.toVital.Forgets (c.expireStaleDeparting now).toVital := by
  unfold expireStaleDeparting
  split
  · exact .refl _
  · exact foldl_forgets dropDeparting_forgets _ _

/-- The membership reset forgets, and a member that was just added starts from zero. -/
theorem resetPeerProgress_spec (oldMembers : Finset N) (entryIndex : Nat) :
    c.toVital.Forgets (c.resetPeerProgressOnMembershipChange oldMembers entryIndex).toVital ∧
      ∀ p, (p ∈ c.peers ∨ p ∈ c.learners) → p ∉ oldMembers →
        (c.resetPeerProgressOnMembershipChange oldMembers entryIndex).peerMatch p = 0 := by
  have hadded (c : RaftCore N C S) (x : N) : c.toVital.Forgets (resetAddedPeer entryIndex c x).toVital := by
    rw [resetAddedPeer_toVital]
    exact c.toVital.forgets_insert x
  have hzero (c : RaftCore N C S) (x : N) : (resetAddedPeer entryIndex c x).peerMatch x = 0 := by
    rw [resetAddedPeer_toVital]
    simp [Ledger.peerMatch]
  have hremoved := foldl_forgets (resetRemovedPeer_forgets (N := N) (C := C) (S := S))
  refine ⟨(foldl_forgets hadded _ _).trans (hremoved _ _), fun p hp hold => ?_⟩
  refine (hremoved _ _).eq_zero (foldl_zeroes hadded hzero _ _ ?_)
  simpa [hold] using hp

/-- The peer bookkeeping of a membership entry: a leader forgets, and starts new members at zero. -/
theorem adoptMembers_spec (c before : RaftCore N C S) (entry : LogEntry N C) (hrole : c.role = .leader) :
    c.toVital.Forgets (c.adoptMembers before entry).toVital ∧
      ∀ p, (p ∈ c.peers ∨ p ∈ c.learners) → p ∉ before.peers → p ∉ before.learners →
        (c.adoptMembers before entry).peerMatch p = 0 := by
  have hnote := c.noteRemovedPeers_toVital before.peers entry
  have hrole' : (c.noteRemovedPeers before.peers entry).role = .leader := by rw [hnote, hrole]
  have hreset (d : RaftCore N C S) (hd : d.toVital = c.toVital) :
    c.toVital.Forgets (d.resetPeerProgressOnMembershipChange
          (before.peers.toFinset ∪ before.learners) entry.index).toVital ∧
        ∀ p, (p ∈ c.peers ∨ p ∈ c.learners) → p ∉ before.peers → p ∉ before.learners →
          (d.resetPeerProgressOnMembershipChange
            (before.peers.toFinset ∪ before.learners) entry.index).peerMatch p = 0 := by
    obtain ⟨hforgets, hzero⟩ :=
      d.resetPeerProgress_spec (before.peers.toFinset ∪ before.learners) entry.index
    rw [hd] at hforgets hzero
    exact ⟨hforgets, fun p hp hpeer hlearner => hzero p hp (by simp [hpeer, hlearner])⟩
  simp only [adoptMembers, hrole, hrole', if_true, refreshRemovedFlag_toVital]
  exact hreset _ hnote

end RaftCore

theorem RaftCore.logAppend_toVital (c : RaftCore N C S) (entry : LogEntry N C)
    (hrole : c.role ≠ .leader) : (c.logAppend entry).toVital = c.toVital.pushEntry entry := by
  unfold RaftCore.logAppend
  dsimp only
  split
  · -- a follower keeps no peers to adopt
    have hrole' : (c.toVital.pushEntry entry).role ≠ .leader := by simpa only [Vital.pushEntry_eq] using hrole
    simp only [adoptMembers, hrole', if_false, refreshRemovedFlag_toVital]
  · rfl

/-- A leader's append: the pushed entry, and new members at match zero. -/
theorem RaftCore.logAppend_spec (c : RaftCore N C S) (entry : LogEntry N C) (hrole : c.role = .leader) :
    (c.toVital.pushEntry entry).Forgets (c.logAppend entry).toVital ∧
      ∀ p, p ∈ (c.toVital.pushEntry entry).peers ∨ p ∈ (c.toVital.pushEntry entry).learners →
        p ∉ c.peers → p ∉ c.learners → (c.logAppend entry).peerMatch p = 0 := by
  unfold RaftCore.logAppend
  dsimp only
  split
  · refine RaftCore.adoptMembers_spec { c with toVital := c.toVital.pushEntry entry } c entry ?_
    simpa only [Vital.pushEntry_eq] using hrole
  · rename_i hconfig
    refine ⟨.refl _, fun p hp hpeer hlearner => ?_⟩
    simp only [not_isSome_iff_eq_none] at hconfig
    simp only [Vital.pushEntry_eq, hconfig] at hp
    exact absurd hp (by simp [hpeer, hlearner])

namespace Vital

/-- `apply` moves the applied index, the state machine and what is owed to it, and may panic. -/
def Applies (c d : Vital N C S) : Prop :=
  ∃ lastApplied pendingApply metadata applied panicked, d = { c with
      lastApplied := lastApplied, pendingApply := pendingApply, metadata := metadata, applied := applied,
      panicked := panicked }

theorem applyTimes_eq (steps : Nat) (c : Vital N C S) : c.Applies (applyTimes steps c) := by
  induction steps generalizing c with
  | zero => exact ⟨_, _, _, _, _, rfl⟩
  | succ steps ih =>
    have hone : c.Applies c.applyOne := by
      unfold applyOne
      dsimp only
      split
      · exact ⟨_, _, _, _, _, rfl⟩
      · split
        · exact ⟨_, _, _, _, _, rfl⟩
        · split <;> exact ⟨_, _, _, _, _, rfl⟩
    obtain ⟨_, _, _, _, _, hone⟩ := hone
    obtain ⟨_, _, _, _, _, hrest⟩ := ih c.applyOne
    exact ⟨_, _, _, _, _, by rw [applyTimes, hrest, hone]⟩

theorem apply_eq (c : Vital N C S) : c.Applies c.apply := applyTimes_eq _ c

@[simp] theorem apply_role (c : Vital N C S) : c.apply.role = c.role := by
  obtain ⟨_, _, _, _, _, h⟩ := c.apply_eq
  rw [h]

/-- What following the leader's commit index may change of a core. -/
theorem followCommit_eq (c : Vital N C S) (leaderCommit idx : Nat) :
    ∃ commit, Applies { c with commitIndex := commit } (c.followCommit leaderCommit idx) := by
  unfold followCommit
  split
  · exact ⟨_, apply_eq _⟩
  · exact ⟨c.commitIndex, _, _, _, _, _, rfl⟩

/-- What accepting a batch may change of a core. -/
def Merges (c d : Vital N C S) : Prop :=
  ∃ peers size config learners log durable pending panicked, d = { c with
      peers := peers, clusterSize := size, config := config, learners := learners, log := log,
      durableIndex := durable
      pending := pending, panicked := panicked }

omit [StateMachine C S] in
theorem foldl_appendStep_eq (entries : List (LogEntry N C)) (c : Vital N C S) (idx : Nat) :
    c.Merges (entries.foldl appendStep (c, idx)).1 := by
  induction entries generalizing c idx with
  | nil => exact ⟨_, _, _, _, _, _, _, _, rfl⟩
  | cons e rest ih =>
    rw [foldl_cons]
    obtain ⟨d, j, hstep, hd⟩ : ∃ d j, appendStep (c, idx) e = (d, j) ∧ c.Merges d := by
      unfold appendStep
      dsimp only
      split
      · split
        · split
          · exact ⟨_, _, rfl, _, _, _, _, _, _, _, _, rfl⟩
          · refine ⟨_, _, rfl, ?_⟩
            rw [pushEntry_eq]
            exact ⟨_, _, _, _, _, _, _, _, rfl⟩
        · exact ⟨_, _, rfl, _, _, _, _, _, _, _, _, rfl⟩
      · refine ⟨_, _, rfl, ?_⟩
        rw [pushEntry_eq]
        exact ⟨_, _, _, _, _, _, _, _, rfl⟩
    obtain ⟨_, _, _, _, _, _, _, _, rfl⟩ := hd
    rw [hstep]
    exact ih _ _

end Vital

variable {In : N → RaftMsg N C → Prop} {G : SnapshotRules N C S} {sent : List (Out N C)}

variable (c : Vital N C S)

/-- What never changes in a core: its id, the configuration it was created with, and whether it
records installs in the WAL. -/
def Vital.identity : N × Finset N × Finset N × Bool :=
  (c.id, c.initialConfig, c.initialLearners, c.walRecordsInstall)

/-- What only an install changes: the identity, and whether a rewrite of the WAL is owed. -/
def Vital.standing : (N × Finset N × Finset N × Bool) × Bool :=
  (c.identity, c.installRewriteOwed)

omit [StateMachine C S] in
theorem Vital.pushEntry_standing (entry : LogEntry N C) : (c.pushEntry entry).standing = c.standing := by
  rw [Vital.pushEntry_eq]
  rfl

theorem Vital.apply_standing : c.apply.standing = c.standing := by
  obtain ⟨_, _, _, _, _, h⟩ := c.apply_eq
  rw [h]
  rfl

theorem Vital.followCommit_standing (leaderCommit idx : Nat) :
    (c.followCommit leaderCommit idx).standing = c.standing := by
  obtain ⟨_, _, _, _, _, _, heq⟩ := c.followCommit_eq leaderCommit idx
  rw [heq]
  rfl

omit [StateMachine C S] in
/-- An install keeps the identity, and owes a rewrite unless it was recorded. -/
theorem Vital.install_standing (inc : IncomingSnapshot) (config learners : Option (Finset N)) :
    (c.install inc config learners).standing =
    (c.identity, if c.walRecordsInstall then c.installRewriteOwed else true) := by
  unfold Vital.install
  dsimp only
  split
  · rename_i hrecords
    rw [if_pos (by exact hrecords)]
    rfl
  · rename_i hrecords
    rw [if_neg (by exact hrecords)]
    rfl

theorem Move.standing {c d : Vital N C S} (h : Move In G c d sent) :
    d.identity = c.identity ∧ (c.installRewriteOwed = true → d.installRewriteOwed = true) := by
  have hkeep {a b : Vital N C S} (hstanding : b.standing = a.standing) :
      b.identity = a.identity ∧ (a.installRewriteOwed = true → b.installRewriteOwed = true) := by
    simp only [Vital.standing, Prod.mk.injEq] at hstanding
    exact ⟨hstanding.1, fun h => hstanding.2.trans h⟩
  cases h with
  | lead => exact hkeep (Vital.pushEntry_standing _ _)
  | append m command config learners =>
    exact hkeep (c.pushEntry_standing (c.ownEntry command config learners))
  | apply => exact hkeep c.apply_standing
  | accept =>
    refine hkeep ((Vital.followCommit_standing _ _ _).trans ?_)
    obtain ⟨_, _, _, _, _, _, _, _, heq⟩ := Vital.foldl_appendStep_eq _ c _
    rw [heq]
    rfl
  | install _ _ inc _ _ _ _ _ _ config learners metadata =>
    have hstanding := Vital.install_standing { c with incomingSnapshot := none, metadata := metadata } inc
      config learners
    simp only [Vital.standing, Prod.mk.injEq] at hstanding
    refine ⟨hstanding.1, fun howed => hstanding.2.trans ?_⟩
    split
    · exact howed
    · rfl
  | _ => exact ⟨rfl, id⟩

theorem Moves.identity {c d : Vital N C S} (h : Moves In G c d sent) : d.identity = c.identity := by
  induction h with
  | refl => rfl
  | tail _ hmove ih => exact hmove.standing.1.trans ih

end AnimusDb.Raft
