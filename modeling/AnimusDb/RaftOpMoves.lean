import AnimusDb.RaftFrames

/-! Every operation of a core is a sequence of moves. The lemmas follow the handlers; the last
theorem is about an arbitrary operation, and is all that the invariants need to know of the
handlers. -/

open QuorumSets List Option

namespace AnimusDb.Raft

variable {N C S : Type} [LinearOrder N] [StateMachine C S]
  {In : N → RaftMsg N C → Prop} {G : SnapshotRules N C S} {now : Nanos} {entropy : Nat}
  {sender leader candidate : N}
  {term lastLogIndex lastLogTerm prevLogIndex prevLogTerm leaderCommit index lastIndex lastTerm offset total : Nat}
  {granted : Bool} {entries : List (LogEntry N C)} {data : Bytes} {done : Bool}
    {config learners : Option (Finset N)}
  {msg : RaftMsg N C} {command : C} {resend : SnapshotResend}

/-- A result that the core comes to by moves. -/
def RaftCore.Reaches (In : N → RaftMsg N C → Prop) (G : SnapshotRules N C S) (c : RaftCore N C S)
    (result : RaftCore N C S × List (Out N C)) : Prop :=
  Moves In G c.toVital result.1.toVital result.2

theorem Vital.Forgets.moves {a b : Vital N C S} (h : a.Forgets b) : Moves In G a b [] := by
  obtain ⟨m, rfl, hm⟩ := h
  exact .single (.forget a m hm)

namespace RaftCore

variable (c : RaftCore N C S)

theorem advance_apply_moves (hrole : c.role = .leader) :
    Moves In G c.toVital c.maybeAdvanceCommit.apply.toVital [] :=
  (Moves.single (.advance c.toVital hrole)).tail (.apply _ hrole)

@[simp] theorem advance_apply_role : c.maybeAdvanceCommit.apply.role = c.role := by
  change c.toVital.maybeAdvanceCommit.apply.role = c.role
  rw [Vital.apply_role]
  rfl

theorem appendOwn_moves (hrole : c.role = .leader) (hmay : c.toVital.MayPropose config learners) :
    Moves In G c.toVital (c.appendOwn command config learners).1.toVital [] := by
  obtain ⟨⟨m, heq, hforgets⟩, hzero⟩ :=
    c.logAppend_spec (c.ownEntry command config learners) hrole
  have happend : Move In G c.toVital (c.logAppend (c.ownEntry command config learners)).toVital [] := by
    rw [heq]
    refine .append c.toVital m command config learners hrole hmay fun p hp => ?_
    have hforgets := hforgets p
    have hzero := hzero p hp
    rw [heq] at hforgets hzero
    have hold : (c.toVital.pushEntry (c.ownEntry command config learners)).peerMatch p = c.peerMatch p := by
      rw [Vital.pushEntry_eq]
      rfl
    rw [hold] at hforgets
    by_cases hpeer : p ∈ c.peers
    · exact hforgets.symm.imp id fun h => ⟨h, .inl hpeer⟩
    · by_cases hlearner : p ∈ c.learners
      · exact hforgets.symm.imp id fun h => ⟨h, .inr hlearner⟩
      · exact .inl (hzero hpeer hlearner)
  have hrole' : (c.logAppend (c.ownEntry command config learners)).role = .leader := by
    rw [heq]
    simpa only [Vital.pushEntry_eq] using hrole
  exact (Moves.single happend).trans (advance_apply_moves _ hrole')

omit [StateMachine C S] in
/-- What the precheck of a learner change has established when it lets the change through. -/
theorem learnerChangePrecheck_none (h : c.learnerChangePrecheck = none) :
    c.role = .leader ∧ c.firstTermIndex ≤ c.commitIndex ∧ c.configChangeInFlight = false := by
  unfold learnerChangePrecheck at h
  split at h
  · cases h
  rename_i hrole
  split at h
  · cases h
  split at h
  · cases h
  · rename_i hready
    push Not at hready
    exact ⟨not_not.mp hrole, hready.1, by simpa using hready.2⟩

end RaftCore

theorem card_symmDiff_insert_le (s : Finset N) (id : N) : (symmDiff s (insert id s)).card ≤ 1 := by
  refine (Finset.card_le_card ?_).trans (Finset.card_singleton id).le
  intro x hx
  simp only [Finset.mem_symmDiff, Finset.mem_insert] at hx
  rw [Finset.mem_singleton]
  tauto

variable (c : RaftCore N C S)

theorem RaftCore.broadcastAppend_moves (hrole : c.role = .leader) :
    c.Reaches In G (c.broadcastAppend resend) := by
  rw [RaftCore.Reaches, c.broadcastAppend_toVital]
  exact .emitAll (fun _ ho => c.broadcastAppend_emits hrole ho)

theorem RaftCore.replyTo_moves {peer : N} (hrole : c.role = .leader) :
    c.Reaches In G (c.replyTo peer resend) := by
  rw [RaftCore.Reaches, c.replyTo_toVital]
  exact .emitAll (fun _ ho => c.replyTo_emits hrole ho)

namespace RaftCore

omit [StateMachine C S] in
/-- The fresh progress of a new leader: every peer and learner starts at match zero. -/
theorem initProgress_spec (last : Nat) (now : Nanos) : c.toVital.Forgets (c.initProgress last now).toVital ∧
      ∀ p, p ∈ c.peers ∨ p ∈ c.learners → (c.initProgress last now).peerMatch p = 0 := by
  have hpeer (c : RaftCore N C S) (p : N) : c.toVital.Forgets (initPeerProgress last now c p).toVital :=
    c.toVital.forgets_insert p
  have hzero (c : RaftCore N C S) (p : N) : (initPeerProgress last now c p).peerMatch p = 0 := by
    simp [initPeerProgress, Ledger.peerMatch]
  have hgone (c : RaftCore N C S) (entry : N × Departing) :
    c.toVital.Forgets (initDepartingPeer last c entry).toVital := by
    unfold initDepartingPeer
    split
    · exact .refl _
    · exact c.toVital.forgets_insert entry.1
  refine ⟨(foldl_forgets hpeer _ _).trans (foldl_forgets hgone _ _), fun p hp => ?_⟩
  refine (foldl_forgets hgone _ _).eq_zero (foldl_zeroes hpeer hzero _ _ ?_)
  simpa using hp

omit [StateMachine C S] in
theorem assumeLeadership_toVital (now : Nanos) : ∃ m, (c.assumeLeadership now).toVital =
        { c.toVital with role := .leader, matchIndex := m, firstTermIndex := c.lastLogIndex + 1 } ∧
      ∀ p, p ∈ c.peers ∨ p ∈ c.learners → m[p]?.getD 0 = 0 := by
  obtain ⟨⟨m, hm, _⟩, hzero⟩ := (c.takeRole now).initProgress_spec c.lastLogIndex now
  refine ⟨m, ?_, fun p hp => ?_⟩
  · simp only [assumeLeadership, hm]
    rfl
  · have := hzero p hp
    rwa [hm] at this

theorem appendNoop_toVital (now : Nanos) : ∃ m, (c.appendNoop now).toVital = Vital.pushEntry
          { c.toVital with role := .leader, matchIndex := m, firstTermIndex := c.lastLogIndex + 1 }
          (noopEntry S c.currentTerm (c.lastLogIndex + 1)) ∧
      ∀ p, p ∈ c.peers ∨ p ∈ c.learners → m[p]?.getD 0 = 0 := by
  obtain ⟨m, hlead, hm⟩ := c.assumeLeadership_toVital now
  refine ⟨m, ?_, hm⟩
  simp only [appendNoop, logAppend, noopEntry, isSome_none, Bool.false_eq_true, if_false, hlead]

theorem becomeLeader_moves (hrole : c.role = .candidate) (hmajority : c.majority ≤ c.votes.card) :
    c.Reaches In G (c.becomeLeader now) := by
  obtain ⟨m, hnoop, hm⟩ := c.appendNoop_toVital now
  have hlead : Moves In G c.toVital (c.appendNoop now).toVital [] := by
    rw [hnoop]
    exact .single (.lead c.toVital m hrole hmajority hm)
  have hleader : (c.appendNoop now).role = .leader := by
    rw [hnoop, Vital.pushEntry_eq]
  have happly : Moves In G _ _ [] := (c.appendNoop now).advance_apply_moves hleader
  have hready := ((c.appendNoop now).advance_apply_role).trans hleader
  rw [becomeLeader]
  generalize (c.appendNoop now).maybeAdvanceCommit.apply = d at happly hready
  exact (hlead.before happly).before ((d.armHeartbeat now).broadcastAppend_moves hready)

omit [StateMachine C S] in
theorem isVoter_mem (h : c.isVoter = true) : c.id ∈ c.config := by
  simp only [isVoter, Bool.and_eq_true, decide_eq_true_eq] at h
  exact h.2

theorem startElection_moves : c.Reaches In G (c.startElection now entropy) := by
  unfold startElection
  split
  · exact .refl _
  split
  · exact .refl _
  rename_i hvoter
  simp only [Bool.or_eq_true, Bool.not_eq_eq_eq_not, Bool.not_true, not_or, Bool.not_eq_false] at hvoter
  have hcampaign : Moves In G c.toVital (c.becomeCandidate now entropy).toVital [] :=
    .single (.campaign c.toVital (c.isVoter_mem hvoter.1.1))
  dsimp only
  split
  · rename_i hmajority
    exact hcampaign.before ((c.becomeCandidate now entropy).becomeLeader_moves rfl hmajority)
  · refine hcampaign.before (.emitAll fun o ho => ?_)
    obtain ⟨p, _, rfl⟩ := mem_map.mp ho
    exact ⟨rfl, rfl, rfl, rfl, rfl⟩

theorem probes_moves : Moves In G c.toVital c.toVital c.broadcastClusterProbe := by
  refine .emitAll fun o ho => ?_
  obtain ⟨p, _, rfl⟩ := mem_map.mp ho
  trivial

theorem startPreVote_moves : c.Reaches In G (c.startPreVote now entropy) := by
  unfold startPreVote
  split
  · exact .refl _
  · exact c.probes_moves
  split
  · dsimp only
    split <;> exact .refl _
  have hdemote : Moves In G c.toVital (c.becomePreCandidate now entropy).toVital [] :=
    .single (.demote c.toVital .preCandidate c.votes (.inr rfl))
  dsimp only
  split
  · exact hdemote.before (c.becomePreCandidate now entropy).startElection_moves
  · refine hdemote.before (.emitAll fun o ho => ?_)
    obtain ⟨p, _, rfl⟩ := mem_map.mp ho
    trivial

theorem concede_moves : Moves In G c.toVital c.concede.toVital [] := by
  unfold concede
  split
  · exact .single (.demote c.toVital .follower ∅ (.inl rfl))
  · exact .refl _

theorem handlePreVote_moves : c.Reaches In G (c.handlePreVote candidate term lastLogIndex lastLogTerm now) := by
  unfold handlePreVote
  dsimp only
  split
  · exact c.concede_moves.before (.single (.emit _ _ trivial))
  · exact .single (.emit _ _ trivial)

theorem adoptTerm_moves (hterm : c.currentTerm < term) : Moves In G c.toVital (c.adoptTerm term).toVital [] :=
  .single (.adoptTerm c.toVital term hterm)

/-- The vote moves, for a request whose term the core has adopted or passed. -/
theorem handleRequestVote_moves (hin : In sender (.requestVote term candidate lastLogIndex lastLogTerm))
    (hterm : term ≤ c.currentTerm) :
    c.Reaches In G (c.handleRequestVote candidate term lastLogIndex lastLogTerm now entropy) := by
  unfold handleRequestVote
  dsimp only
  split
  · rename_i hgranted
    rw [hgranted]
    simp only [voteGranted, Bool.and_eq_true, Bool.or_eq_true, isNone_iff_eq_none,
      decide_eq_true_eq] at hgranted
    obtain ⟨⟨⟨hle, hvote⟩, hlog⟩, _⟩ := hgranted
    obtain rfl : term = c.currentTerm := le_antisymm hterm hle
    have hgrant : Moves In G c.toVital (c.castVote candidate now entropy).toVital [] :=
      .single (.grant c.toVital sender candidate lastLogIndex lastLogTerm hin hvote hlog)
    exact hgrant.before (.single (.emit _ _ fun _ => ⟨rfl, rfl⟩))
  · rename_i hgranted
    refine .single (.emit _ _ fun h => ?_)
    exact absurd h hgranted

theorem handleVoteResp_moves (hin : In sender (.requestVoteResp term granted)) :
    c.Reaches In G (c.handleVoteResp sender term granted now) := by
  unfold Reaches handleVoteResp
  cases granted with
  | false =>
    simp only [Bool.false_eq_true, if_false, Bool.false_and, ite_self]
    exact .refl _
  | true =>
    simp only [if_true, Bool.true_and, decide_eq_true_eq]
    have hvital : (c.hear sender).toVital = c.toVital := rfl
    rw [← hvital]
    generalize c.hear sender = d
    split
    · exact .refl _
    rename_i hstale
    push Not at hstale
    obtain ⟨hrole, rfl⟩ := hstale
    split
    · rename_i hmember
      have hcollect : Moves In G d.toVital (d.countVote sender).toVital [] :=
        .single (.collect d.toVital sender hin hrole hmember)
      split
      · rename_i hmajority
        exact hcollect.before ((d.countVote sender).becomeLeader_moves hrole hmajority)
      · exact hcollect
    · exact .refl _

theorem beat_moves (hrole : c.role = .leader) : c.Reaches In G (c.beat now) := by
  have hforgets := c.expireStaleDeparting_forgets now
  have hrole' : (c.expireStaleDeparting now).role = .leader := by
    obtain ⟨m, hm, _⟩ := hforgets
    rw [hm]
    exact hrole
  unfold beat
  dsimp only
  split
  · refine hforgets.moves.before (.emitAll fun o ho => ?_)
    obtain ⟨p, _, rfl⟩ := mem_map.mp ho
    trivial
  · exact hforgets.moves.before (((c.expireStaleDeparting now).armHeartbeat now).broadcastAppend_moves hrole')

theorem tickLeader_moves (now : Nanos) (hrole : c.role = .leader) :
    Moves In G c.toVital (c.tickLeader now).1.toVital ((c.tickLeader now).2.getD []) := by
  unfold tickLeader
  dsimp only
  split
  · split
    · exact beat_moves { c with transferTarget := none } hrole
    · exact .refl _
  · split
    · exact c.beat_moves hrole
    · exact .refl _

theorem tickClusterCheck_moves (now : Nanos) (entropy : Nat) :
    Moves In G c.toVital c.toVital (c.tickClusterCheck now entropy).2 := by
  unfold tickClusterCheck
  split
  · split
    · exact c.probes_moves
    · exact .refl _
  · exact .refl _

theorem tickGated_moves {admitted : Bool} : c.Reaches In G (c.tickGated now entropy admitted) := by
  have hframe := tickClusterCheck_toVital { c with nowHint := now } now entropy
  have hprobes : Moves In G _ _ _ :=
    tickClusterCheck_moves { c with nowHint := now } now entropy
  unfold Reaches tickGated
  dsimp only
  generalize tickClusterCheck { c with nowHint := now } now entropy = checked at hframe hprobes
  obtain ⟨d, probes⟩ := checked
  dsimp only at hframe hprobes ⊢
  rw [← hframe] at hprobes ⊢
  split
  · rename_i hrole
    have htick : Moves In G _ _ _ := d.tickLeader_moves now hrole
    split
    · rename_i heq
      rw [heq] at htick
      exact htick
    · rename_i heq
      rw [heq] at htick
      exact hprobes.after htick
  · split
    · split
      · exact .refl _
      · exact d.startPreVote_moves
    · exact hprobes

end RaftCore

/-- On a follower, the loop over a batch acts on the vital part alone. -/
theorem RaftCore.appendStep_toVital (c : RaftCore N C S) (idx : Nat) (entry : LogEntry N C)
    (hrole : c.role ≠ .leader) :
    ((RaftCore.appendStep (c, idx) entry).1.toVital, (RaftCore.appendStep (c, idx) entry).2) =
      Vital.appendStep (c.toVital, idx) entry := by
  simp only [RaftCore.appendStep, Vital.appendStep]
  split
  · split
    · split
      · rfl
      · dsimp only
        rw [RaftCore.logAppend_toVital (c.logTruncate _) entry hrole]
        rfl
    · rfl
  · rw [c.logAppend_toVital _ hrole]

omit [StateMachine C S] in
/-- The loop over a batch keeps role and term. -/
theorem Vital.foldl_appendStep_frame (entries : List (LogEntry N C)) (c : Vital N C S) (idx : Nat) :
    (entries.foldl Vital.appendStep (c, idx)).1.role = c.role ∧
      (entries.foldl Vital.appendStep (c, idx)).1.currentTerm = c.currentTerm := by
  obtain ⟨_, _, _, _, _, _, _, _, heq⟩ := Vital.foldl_appendStep_eq entries c idx
  rw [heq]
  exact ⟨rfl, rfl⟩

theorem Vital.followCommit_currentTerm (c : Vital N C S) (leaderCommit idx : Nat) :
    (c.followCommit leaderCommit idx).currentTerm = c.currentTerm := by
  obtain ⟨_, _, _, _, _, _, heq⟩ := c.followCommit_eq leaderCommit idx
  rw [heq]

theorem Vital.followCommit_role (c : Vital N C S) (leaderCommit idx : Nat) :
    (c.followCommit leaderCommit idx).role = c.role := by
  obtain ⟨_, _, _, _, _, _, heq⟩ := c.followCommit_eq leaderCommit idx
  rw [heq]

namespace RaftCore

theorem foldl_appendStep_toVital (entries : List (LogEntry N C)) (c : RaftCore N C S)
    (idx : Nat) (hrole : c.role ≠ .leader) : ((entries.foldl appendStep (c, idx)).1.toVital,
        (entries.foldl appendStep (c, idx)).2) = entries.foldl Vital.appendStep (c.toVital, idx) := by
  induction entries generalizing c idx with
  | nil => rfl
  | cons entry rest ih =>
    have hstep := c.appendStep_toVital idx entry hrole
    have hrole' : (appendStep (c, idx) entry).1.role ≠ .leader := by
      have := (Vital.foldl_appendStep_frame [entry] c.toVital idx).1
      rw [foldl_cons, foldl_nil, ← hstep] at this
      rwa [this]
    rw [foldl_cons, foldl_cons, ← hstep]
    exact ih _ _ hrole'

theorem followCommit_toVital (leaderCommit idx : Nat) :
    (c.followCommit leaderCommit idx).toVital = c.toVital.followCommit leaderCommit idx := by
  unfold followCommit Vital.followCommit
  split <;> rfl

theorem followLeader_moves (leader : N) (now : Nanos) (entropy : Nat) :
    Moves In G c.toVital (c.followLeader leader now entropy).toVital [] :=
  .single (.demote c.toVital .follower c.votes (.inl rfl))

/-- The accepting branch: the merged log, the commit rule, and an acknowledgement that a core with
full storage cuts at its durable index. -/
theorem acceptEntries_spec (leader : N) (prevLogIndex : Nat)
    (entries : List (LogEntry N C)) (leaderCommit : Nat) (hrole : c.role = .follower) :
    (c.acceptEntries leader prevLogIndex entries leaderCommit).1.toVital =
        Vital.followCommit (entries.foldl Vital.appendStep (c.toVital, prevLogIndex)).1 leaderCommit
          (entries.foldl Vital.appendStep (c.toVital, prevLogIndex)).2 ∧ ∃ index needs check applied,
        (c.acceptEntries leader prevLogIndex entries leaderCommit).2 =
          [(leader, .appendEntriesResp c.currentTerm true index needs check applied)] ∧
        index ≤ (entries.foldl Vital.appendStep (c.toVital, prevLogIndex)).2 ∧
        ((c.acceptEntries leader prevLogIndex entries leaderCommit).1.storageFull = true →
          index ≤ (c.acceptEntries leader prevLogIndex entries leaderCommit).1.durableIndex) := by
  have hfold := foldl_appendStep_toVital entries c prevLogIndex (by simp [hrole])
  have hterm := (Vital.foldl_appendStep_frame entries c.toVital prevLogIndex).2
  unfold acceptEntries
  generalize entries.foldl appendStep (c, prevLogIndex) = merged at hfold
  obtain ⟨d, idx⟩ := merged
  dsimp only at hfold ⊢
  rw [← hfold] at hterm ⊢
  have hterm' : (d.followCommit leaderCommit idx).currentTerm = c.currentTerm := by
    rw [followCommit_toVital, Vital.followCommit_currentTerm, hterm]
  refine ⟨followCommit_toVital .., _, _, _, _, by rw [appendResp, hterm'], ?_, ?_⟩
  · split
    · exact Nat.min_le_left _ _
    · exact le_rfl
  · intro hfull
    rw [if_pos hfull]
    exact Nat.min_le_right _ _

theorem acceptEntries_moves (hin : In sender
    (.appendEntries c.currentTerm leader prevLogIndex prevLogTerm entries leaderCommit))
    (hrole : c.role = .follower) (hprev : c.snapshotIndex ≤ prevLogIndex)
    (hmatch : prevLogIndex = 0 ∨ prevLogIndex ≤ c.lastLogIndex ∧ c.termAt prevLogIndex = prevLogTerm) :
    c.Reaches In G (c.acceptEntries leader prevLogIndex entries leaderCommit) := by
  obtain ⟨hvital, index, needs, check, applied, houts, hindex, _⟩ :=
    c.acceptEntries_spec leader prevLogIndex entries leaderCommit hrole
  rw [Reaches, hvital, houts]
  exact .single (.accept c.toVital sender leader prevLogIndex prevLogTerm entries leaderCommit index
    needs check applied hin hrole hprev hmatch hindex)

theorem handleAppendEntries_moves
    (hin : In sender (.appendEntries term leader prevLogIndex prevLogTerm entries leaderCommit))
    (hterm : term ≤ c.currentTerm) :
    c.Reaches In G (c.handleAppendEntries term leader prevLogIndex prevLogTerm entries leaderCommit now
      entropy) := by
  unfold Reaches handleAppendEntries
  dsimp only
  have hvital : (c.hear leader).toVital = c.toVital := rfl
  rw [← hvital] at hterm ⊢
  generalize c.hear leader = d at hterm
  split
  · exact .single (.emit _ _ rfl)
  rename_i hge
  obtain rfl : term = d.currentTerm := le_antisymm hterm (not_lt.mp hge)
  have hfollow : Moves In G _ _ [] := d.followLeader_moves leader now entropy
  refine hfollow.before ?_
  have hrole : (d.followLeader leader now entropy).role = .follower := rfl
  have hterm' : (d.followLeader leader now entropy).currentTerm = d.currentTerm := rfl
  rw [← hterm'] at hin
  generalize d.followLeader leader now entropy = e at hin hrole
  split
  · exact .single (.ackBase e.toVital sender leader prevLogIndex prevLogTerm entries leaderCommit _ _ _ hin hrole)
  split
  · exact .single (.emit _ _ rfl)
  · rename_i hprev hmatch
    refine e.acceptEntries_moves hin hrole (not_lt.mp hprev) ?_
    rcases Nat.eq_zero_or_pos prevLogIndex with hzero | hpos
    · exact .inl hzero
    · push Not at hmatch
      exact .inr (hmatch hpos)

theorem recordMatch_moves (hin : ∃ needs check applied,
      In sender (.appendEntriesResp c.currentTerm true index needs check applied)) (hrole : c.role = .leader) :
    Moves In G c.toVital (c.recordMatch sender index).toVital [] ∧
      (c.recordMatch sender index).role = .leader := by
  have hraise : Moves In G c.toVital (c.raiseMatch sender index).toVital [] :=
    .single (.recordMatch c.toVital sender index (.inl hin) hrole)
  unfold recordMatch
  dsimp only
  split
  · have hforgets := (c.raiseMatch sender index).dropDeparting_forgets sender
    refine ⟨hraise.before hforgets.moves, ?_⟩
    obtain ⟨m, hm, _⟩ := hforgets
    rw [hm]
    exact hrole
  · exact ⟨hraise, hrole⟩

theorem handleAppendResp_moves {success needs check : Bool} {matchIndex applied : Nat}
    (hin : In sender (.appendEntriesResp term success matchIndex needs check applied)) :
    c.Reaches In G (c.handleAppendResp sender term success matchIndex needs check now) := by
  unfold Reaches handleAppendResp
  split
  · exact .refl _
  rename_i hstale
  push Not at hstale
  obtain ⟨hrole, rfl⟩ := hstale
  have hcontact := c.noteContact_toVital sender now check
  dsimp only
  generalize c.noteContact sender check now = d at hcontact
  rw [← hcontact] at hin hrole ⊢
  generalize (success && decide (d.peerMatch sender < matchIndex)) = progressed
  have hrecord : Moves In G d.toVital (if success then d.recordMatch sender matchIndex else d).toVital []
      ∧ (if success then d.recordMatch sender matchIndex else d).role = .leader := by
    split
    · rename_i hsuccess
      subst hsuccess
      exact d.recordMatch_moves ⟨needs, check, applied, hin⟩ hrole
    · exact ⟨.refl _, hrole⟩
  generalize (if success then d.recordMatch sender matchIndex else d) = e at hrecord
  obtain ⟨hrecord, hleader⟩ := hrecord
  refine hrecord.before ?_
  split
  · generalize hf : (if (e.snapshotServedThrough[sender]?.any fun served =>
      decide (e.snapshotIndex ≤ served)) then e else e.setNext sender 1).clearInflight sender = f
    have hvital : f.toVital = e.toVital := by
      rw [← hf]
      split <;> rfl
    rw [← hvital] at hleader ⊢
    exact (f.advance_apply_moves hleader).before (replyTo_moves _ (f.advance_apply_role.trans hleader))
  split
  · generalize hf : e.setNext sender (max (e.nextIndex[sender]?.getD 1) (matchIndex + 1)) = f
    have hvital : f.toVital = e.toVital := by rw [← hf]; rfl
    rw [← hvital] at hleader ⊢
    have hadvance : Moves In G _ _ [] := f.advance_apply_moves hleader
    split
    · exact hadvance.before (replyTo_moves _ (f.advance_apply_role.trans hleader))
    · exact hadvance
  · exact replyTo_moves ((e.setNext sender _).clearInflight sender) hleader

end RaftCore

theorem RaftCore.completeInstall_moves (c : RaftCore N C S) {inc : IncomingSnapshot}
    (hin : In sender (.installSnapshot c.currentTerm leader lastIndex lastTerm offset data total done config
    learners))
    (hrole : c.role = .follower) (hinc : c.incomingSnapshot = some inc) (hlast : c.lastApplied ≤ lastIndex)
    (hrules : (StateMachine.driverApplied C S ||
      (StateMachine.decodeImage (S := S) C inc.buf).isSome) = true → G.install c.toVital inc lastIndex) :
    c.Reaches In G (c.completeInstall inc leader config learners) := by
  unfold RaftCore.completeInstall
  dsimp only
  split
  · rename_i hdriver
    rw [RaftCore.install, RaftCore.refreshRemovedFlag_toVital]
    exact .single (.install c.toVital sender leader inc lastIndex lastTerm offset data total done
      config learners c.metadata hin hrole hinc hlast (hrules (by rw [hdriver, Bool.true_or])))
  · split
    · rename_i state hstate
      rw [RaftCore.install, RaftCore.refreshRemovedFlag_toVital]
      exact .single (.install c.toVital sender leader inc lastIndex lastTerm offset data total done
        config learners state hin hrole hinc hlast
        (hrules (by rw [hstate, isSome_some, Bool.or_true])))
    · exact (Moves.single (.dropImage c.toVital)).before (.single (.emit _ _ rfl))

theorem completedImage_eq_some {incoming : Option IncomingSnapshot} {inc : IncomingSnapshot}
    (h : completedImage incoming done = some inc) :
    incoming = some inc ∧ done = true ∧ inc.buf.length = inc.total := by
  unfold completedImage at h
  split at h
  · split at h
    · rename_i hdone
      cases h
      simpa using hdone
    · cases h
  · cases h

namespace RaftCore

theorem handleInstallSnapshot_moves
    (hin : In sender (.installSnapshot term leader lastIndex lastTerm offset data total done config learners))
    (hterm : term ≤ c.currentTerm)
      (hrules : ∀ inc, c.installs (.installSnapshot term leader lastIndex lastTerm offset data total
      done config learners) = some inc → G.install c.toVital inc lastIndex) :
    c.Reaches In G (c.handleInstallSnapshot term leader lastIndex lastTerm offset data total done config
      learners now entropy) := by
  unfold handleInstallSnapshot
  dsimp only
  split
  · exact .single (.emit _ _ rfl)
  rename_i hge
  obtain rfl : term = c.currentTerm := le_antisymm hterm (not_lt.mp hge)
  refine Moves.before ((c.hear leader).followLeader_moves leader now entropy) ?_
  have hvital : ((c.hear leader).followLeader leader now entropy).toVital =
    { c.toVital with role := .follower } := rfl
  have hengine : ((c.hear leader).followLeader leader now entropy).toEngine = c.toEngine := rfl
  generalize (c.hear leader).followLeader leader now entropy = d at hvital hengine
  split
  · exact (Moves.single (.dropImage d.toVital)).before (.single (.emit _ _ rfl))
  rename_i hredundant
  have hin' : In sender (.installSnapshot d.currentTerm leader lastIndex lastTerm offset data total done
    config learners) := by
    rw [hvital]
    exact hin
  refine Moves.before (b := (d.takeChunk lastIndex lastTerm offset data total).toVital)
    (.single (.chunk d.toVital sender leader lastIndex lastTerm offset data total done config learners hin')) ?_
  split
  · rename_i inc himage
    obtain ⟨hinc, _, _⟩ := completedImage_eq_some himage
    have hlast : d.lastApplied ≤ lastIndex := by
      simp only [installRedundant, Bool.or_eq_true, decide_eq_true_eq, not_or, not_lt] at hredundant
      exact hredundant.1.2
    refine completeInstall_moves _ hin' (by simp only [takeChunk, hvital]) hinc hlast fun hdecode => ?_
    have hinstalls : c.installs (.installSnapshot c.currentTerm leader lastIndex lastTerm offset data
        total done config learners) = some inc := by
      have hredundant' : c.installRedundant lastIndex = d.installRedundant lastIndex := by
        simp only [installRedundant, hvital, hengine]
      have himage' : completedImage (reassemble c.incomingSnapshot lastIndex lastTerm offset data total)
        done = some inc := by
        rw [← himage]
        simp only [takeChunk, hvital]
      simp only [installs, lt_irrefl, if_false, hredundant', hredundant, himage', hdecode, if_true]
      simp
    have hstable := G.stable c.toVital .follower c.currentTerm c.votedFor
      (d.takeChunk lastIndex lastTerm offset data total).incomingSnapshot inc lastIndex
      (hrules inc hinstalls)
    have : (d.takeChunk lastIndex lastTerm offset data total).toVital = { c.toVital with
          role := .follower, currentTerm := c.currentTerm, votedFor := c.votedFor
          incomingSnapshot :=
            (d.takeChunk lastIndex lastTerm offset data total).incomingSnapshot } := by
      simp only [takeChunk, hvital]
    rw [this]
    exact hstable
  · exact .single (.emit _ _ rfl)

theorem installAccepted_moves {next : Nat}
    (hin : In sender (.installSnapshotResp c.currentTerm lastIndex next)) (hrole : c.role = .leader) :
    c.Reaches In G (c.installAccepted sender lastIndex) := by
  have hforget := c.forgetSnapshotTransfer_toVital sender
  unfold Reaches installAccepted
  dsimp only
  generalize c.forgetSnapshotTransfer sender = d at hforget
  rw [← hforget] at hin hrole ⊢
  have hraise : Moves In G d.toVital (d.raiseMatch sender lastIndex).toVital [] :=
    .single (.recordMatch d.toVital sender lastIndex (.inr ⟨next, hin⟩) hrole)
  refine hraise.before ?_
  have hleader : (d.raiseMatch sender lastIndex).role = .leader := hrole
  generalize d.raiseMatch sender lastIndex = e at hleader
  have hadvance : Moves In G e.toVital _ [] := advance_apply_moves
    ((e.setNext sender (max (e.nextIndex[sender]?.getD 1) (lastIndex + 1))).noteServed sender lastIndex) hleader
  have hready := (advance_apply_role
    ((e.setNext sender (max (e.nextIndex[sender]?.getD 1) (lastIndex + 1))).noteServed sender
      lastIndex)).trans hleader
  generalize ((e.setNext sender (max (e.nextIndex[sender]?.getD 1) (lastIndex + 1))).noteServed sender
    lastIndex).maybeAdvanceCommit.apply = f at hadvance hready
  split
  · exact hadvance.before (f.dropDeparting_forgets sender).moves
  split
  · exact hadvance.before (f.replyTo_moves hready)
  · exact hadvance

theorem installDeclined_moves {base : Nat} (hrole : c.role = .leader) :
    c.Reaches In G (c.installDeclined sender base) := by
  have hforget := c.forgetSnapshotTransfer_toVital sender
  unfold Reaches installDeclined
  dsimp only
  generalize c.forgetSnapshotTransfer sender = d at hforget
  rw [← hforget] at hrole ⊢
  split
  · exact replyTo_moves ((d.noteServed sender base).setNext sender _) hrole
  · exact .refl _

theorem handleInstallSnapshotResp_moves {nextOffset : Nat}
    (hin : In sender (.installSnapshotResp term lastIndex nextOffset)) :
    c.Reaches In G (c.handleInstallSnapshotResp sender term lastIndex nextOffset now) := by
  unfold Reaches handleInstallSnapshotResp
  split
  · exact .refl _
  rename_i hstale
  push Not at hstale
  obtain ⟨hrole, rfl⟩ := hstale
  have hnote := c.noteDepartingReply_toVital sender now
  dsimp only
  generalize c.noteDepartingReply sender now = d at hnote
  rw [← hnote] at hin hrole ⊢
  split
  · exact d.installAccepted_moves hin hrole
  split
  · exact d.installDeclined_moves hrole
  split
  · exact .refl _
  split
  · exact .refl _
  · exact replyTo_moves { d with snapshotSend := d.snapshotSend.insert sender _ } hrole

end RaftCore

namespace RaftCore

theorem strangerNotice_moves (v : Vital N C S) : Moves In G v v (c.strangerNotice candidate).toList := by
  refine .emitAll fun o ho => ?_
  simp only [mem_toList, Ledger.strangerNotice] at ho
  split at ho
  · cases ho
  simp only [bind_eq_bind, bind_eq_some_iff, some.injEq] at ho
  obtain ⟨dep, _, notice, hnotice, rfl⟩ := ho
  unfold Ledger.removalNoticeFor at hnotice
  split at hnotice
  · cases hnotice
  · cases hnotice
    trivial

/-- The condition on the install that a message may complete. -/
def InstallMeets (G : SnapshotRules N C S) (c : RaftCore N C S) (msg : RaftMsg N C) : Prop :=
  match msg with
  | .installSnapshot _ _ lastIndex _ _ _ _ _ _ _ =>
    ∀ inc, c.installs msg = some inc → G.install c.toVital inc lastIndex
  | _ => True

theorem dispatch_moves (hin : In sender msg) (hterm : msg.isPreVote = true ∨ msg.term ≤ c.currentTerm)
    (hmeets : c.InstallMeets G msg) : c.Reaches In G (c.dispatch sender msg now entropy) := by
  cases msg with
  | preVote => exact c.handlePreVote_moves.trans (c.strangerNotice_moves _)
  | preVoteResp =>
    simp only [dispatch, handlePreVoteResp]
    split
    · exact .refl _
    split
    · exact .refl _
    split
    · split
      · split
        · exact startElection_moves { c with preVotes := insert sender c.preVotes }
        · exact .refl _
      · exact .refl _
    split
    · exact c.adoptTerm_moves (by assumption)
    · exact .refl _
  | requestVote =>
    have hterm := hterm.resolve_left Bool.false_ne_true
    exact (c.handleRequestVote_moves hin hterm).trans (c.strangerNotice_moves _)
  | requestVoteResp => exact c.handleVoteResp_moves hin
  | appendEntries => exact c.handleAppendEntries_moves hin (hterm.resolve_left Bool.false_ne_true)
  | appendEntriesResp => exact c.handleAppendResp_moves hin
  | installSnapshot => exact c.handleInstallSnapshot_moves hin (hterm.resolve_left Bool.false_ne_true) hmeets
  | installSnapshotResp => exact c.handleInstallSnapshotResp_moves hin
  | heartbeat => exact .refl _
  | timeoutNow =>
    simp only [dispatch, handleTimeoutNow]
    split
    · exact .refl _
    · exact c.startElection_moves
  | quiesce =>
    simp only [Reaches, dispatch, handleQuiesce_toVital]
    exact .refl _
  | wakeRequest =>
    simp only [dispatch, handleWakeRequest]
    split
    · exact .refl _
    · exact c.replyTo_moves (not_not.mp (by assumption))
  | clusterProbe => exact .single (.emit _ _ trivial)
  | clusterProbeResp =>
    simp only [Reaches, dispatch, handleClusterProbeResp_toVital]
    exact .refl _
  | removed =>
    simp only [dispatch, handleRemoved]
    split
    · exact .single (.emit _ _ trivial)
    split
    · exact .refl _
    split
    · exact .refl _
    · exact (Moves.single (.demote c.toVital .follower c.votes (.inl rfl))).before (.single (.emit _ _ trivial))
  | removedAck =>
    simp only [Reaches, dispatch, handleRemovedAck]
    split
    · exact .refl _
    split
    · exact .refl _
    split
    · exact .refl _
    have hnote := c.noteDepartingReply_toVital sender c.nowHint
    generalize c.noteDepartingReply sender c.nowHint = d at hnote
    rw [← hnote]
    split
    · exact (d.dropDeparting_forgets sender).moves
    · exact .refl _

theorem stepDownFor_moves : Moves In G c.toVital (c.stepDownFor msg).toVital [] := by
  unfold stepDownFor
  split
  · rename_i hlater
    simp only [Bool.and_eq_true, decide_eq_true_eq] at hlater
    exact c.adoptTerm_moves hlater.2
  · exact .refl _

omit [StateMachine C S] in
theorem stepDownFor_term : msg.isPreVote = true ∨ msg.term ≤ (c.stepDownFor msg).currentTerm := by
  cases hpre : msg.isPreVote with
  | true => exact .inl rfl
  | false =>
    right
    simp only [stepDownFor, hpre, Bool.not_false, Bool.true_and, decide_eq_true_eq]
    split
    · exact le_rfl
    · exact not_lt.mp (by assumption)

theorem stepDownFor_meets (hmeets : c.InstallMeets G msg) : (c.stepDownFor msg).InstallMeets G msg := by
  cases msg with
  | installSnapshot term leader lastIndex lastTerm offset data total done config learners =>
    intro inc hinc
    unfold stepDownFor at hinc ⊢
    simp only [RaftMsg.isPreVote, Bool.not_false, Bool.true_and, RaftMsg.term] at hinc ⊢
    split
    · rename_i hlater
      rw [if_pos hlater] at hinc
      have hlater := of_decide_eq_true hlater
      refine G.stable c.toVital .follower term none c.incomingSnapshot inc lastIndex (hmeets inc ?_)
      rw [← hinc]
      unfold installs
      dsimp only
      rw [if_neg (not_lt.mpr hlater.le)]
      exact (if_neg (lt_irrefl term)).symm
    · rename_i hlater
      rw [if_neg hlater] at hinc
      exact hmeets inc hinc
  | _ => trivial

end RaftCore

/-- The condition reads only the vital part and the engine. -/
theorem RaftCore.InstallMeets.congr {c d : RaftCore N C S} (hmeets : c.InstallMeets G msg)
    (hvital : d.toVital = c.toVital) (hengine : d.toEngine = c.toEngine) : d.InstallMeets G msg := by
  cases msg with
  | installSnapshot term leader lastIndex lastTerm offset data total done config learners =>
    intro inc hinc
    rw [hvital]
    refine hmeets inc ?_
    rw [← hinc]
    cases c
    cases d
    cases hvital
    cases hengine
    rfl
  | _ => trivial

theorem RaftCore.handleAwake_moves (c : RaftCore N C S) (hin : In sender msg)
    (hterm : msg.isPreVote = true ∨ msg.term ≤ c.currentTerm) (hmeets : c.InstallMeets G msg) :
    c.Reaches In G (c.handleAwake sender msg now entropy) := by
  have hdispatch : c.Reaches In G (c.dispatch sender msg now entropy) := c.dispatch_moves hin hterm hmeets
  unfold RaftCore.Reaches RaftCore.handleAwake
  split
  · dsimp only
    split
    · exact hdispatch
    · rw [RaftCore.armLeaseGrace_toVital]
      exact hdispatch
  split
  · dsimp only
    split <;> exact hdispatch
  · have hvital := c.unquiesce_toVital now
    have hmeets' := hmeets.congr hvital (c.unquiesce_toEngine now)
    rw [← hvital] at hterm ⊢
    exact (c.unquiesce now).dispatch_moves hin hterm hmeets'

theorem RaftCore.handle_moves (c : RaftCore N C S) (hin : In sender msg) (hmeets : c.InstallMeets G msg) :
    c.Reaches In G (c.handle sender msg now entropy) := by
  have hvital : ({ c with nowHint := now } : RaftCore N C S).toVital = c.toVital := rfl
  have hmeets : RaftCore.InstallMeets G { c with nowHint := now } msg := hmeets.congr rfl rfl
  unfold RaftCore.Reaches RaftCore.handle
  dsimp only
  rw [← hvital]
  generalize ({ c with nowHint := now } : RaftCore N C S) = d at hmeets
  split
  · rw [RaftCore.unquiesce_toVital]
    exact RaftCore.strangerNotice_moves _ d.toVital
  · exact Moves.before d.stepDownFor_moves ((d.stepDownFor msg).handleAwake_moves hin d.stepDownFor_term
      (d.stepDownFor_meets hmeets))

/-- The message that an operation reads. -/
def Op.Reads (op : Op N C) (sender : N) (msg : RaftMsg N C) : Prop :=
  ∃ now entropy, op = .handle sender msg now entropy

namespace RaftCore

/-- The rules for the snapshots that an operation takes or installs. -/
def SnapshotsMeet (G : SnapshotRules N C S) (c : RaftCore N C S) : Op N C → Prop
  | .handle _ msg _ _ => c.InstallMeets G msg
  | .snapshotUpto _ => G.compact
  | _ => True

theorem perform_moves (op : Op N C) (hmeets : c.SnapshotsMeet G op) :
    Moves op.Reads G c.toVital (c.perform op).1.toVital (c.perform op).2 := by
  cases op with
  | tick => exact c.tickGated_moves
  | handle => exact c.handle_moves ⟨_, _, rfl⟩ hmeets
  | propose =>
    simp only [perform, propose]
    split
    · exact .refl _
    split
    · exact .refl _
    · exact c.appendOwn_moves (not_not.mp (by assumption)) trivial
  | changeMembership =>
    simp only [perform, changeMembership]
    split
    · exact .refl _
    rename_i hrole
    split
    · exact .refl _
    split
    · exact .refl _
    rename_i hfirst
    split
    · exact .refl _
    · rename_i hvalid
      push Not at hvalid
      obtain ⟨hcard, hflight, hself, _⟩ := hvalid
      refine c.appendOwn_moves (not_not.mp hrole) ⟨not_lt.mp hfirst, ?_, hcard.le, .inl hself⟩
      simpa using hflight
  | addLearner | promoteLearner | removeLearner =>
    simp only [perform, addLearner, promoteLearner, removeLearner]
    split
    · exact .refl _
    split
    · exact .refl _
    · obtain ⟨hrole, hfirst, hflight⟩ := c.learnerChangePrecheck_none ‹_›
      exact c.appendOwn_moves hrole ⟨hfirst, hflight, by simp [card_symmDiff_insert_le], .inr (by simp)⟩
  | transferLeadership | set | setTiming | noteLocalActivity =>
    simp only [perform, transferLeadership_toVital, set_toVital, setTiming_toVital, noteLocalActivity_toVital]
    exact .refl _
  | snapshotUpto =>
    simp only [perform, snapshotUpto]
    split
    · exact .refl _
    · rename_i hbase
      split <;> exact .single (.compact c.toVital _ (not_le.mp hbase) (Nat.min_le_right _ _) hmeets)
  | onLocalWake =>
    simp only [perform, onLocalWake]
    split
    · exact .refl _
    split
    · exact .single (.emit _ _ trivial)
    · exact .refl _
  | replicateNow now =>
    simp only [perform, replicateNow]
    split
    · exact broadcastAppend_moves (armHeartbeat { c with nowHint := now } now) (by assumption)
    · exact .refl _
  | campaignNow =>
    simp only [perform, campaignNow]
    split
    · exact .refl _
    · exact c.startPreVote_moves
  | beginClusterCheck =>
    simp only [perform, beginClusterCheck]
    split
    · exact .refl _
    split
    · exact .refl _
    · exact c.probes_moves

end RaftCore

end AnimusDb.Raft
