import AnimusDb.GroupSim

/-! State-machine safety and leader completeness. What a leader has committed and synced is in the
log of every later leader, and what replicas apply is committed in the synced state, so that any two
replicas apply the same entry at the same index. -/

open QuorumSets LogConsensus List Option

namespace AnimusDb.Raft

variable {N C S : Type} [LinearOrder N] [StateMachine C S] {m0 : Finset N} {n : N}

/-- The triple is a committed entry. -/
def Agreed (m0 : Finset N) (F : Set (Fact N (LogEntry N C))) (triple : Nat × Nat × C) : Prop :=
  ∃ P e u, Committed m0 F u (P ++ [e]) ∧ triple = (P.length + 1, e.term, e.command)

variable {F : Set (Fact N (LogEntry N C))}

omit [StateMachine C S] in
theorem Agreed.mono {G : Set (Fact N (LogEntry N C))} {triple : Nat × Nat × C} (hFG : F ⊆ G)
    (h : Agreed m0 F triple) : Agreed m0 G triple := by
  obtain ⟨P, e, u, hP, heq⟩ := h
  exact ⟨P, e, u, hP.weaken hFG le_rfl, heq⟩

omit [StateMachine C S] in
theorem Agreed.unique (hs : Sound m0 F) {x y : Nat × Nat × C}
    (hx : Agreed m0 F x) (hy : Agreed m0 F y) (hindex : x.1 = y.1) : x = y := by
  obtain ⟨P, e, u, hP, rfl⟩ := hx
  obtain ⟨Q, f, v, hQ, rfl⟩ := hy
  have hlen : (P ++ [e]).length = (Q ++ [f]).length := by
    simpa using hindex
  have heq : P ++ [e] = Q ++ [f] := by
    rcases hs.committed_comparable hP hQ with hle | hle
    · exact hle.eq_of_length hlen
    · exact (hle.eq_of_length hlen.symm).symm
  obtain ⟨rfl, hef⟩ := append_inj' heq rfl
  cases hef
  rfl

omit [StateMachine C S] in
theorem Gains.agreed {X : List (LogEntry N C)}
    {low high u : Nat} {before after : List (Nat × Nat × C)} (h : Gains X low high before after)
    (hcommitted : ∀ k, low ≤ k → k < high → k < X.length → Committed m0 F u (X.take (k + 1)))
    (hbefore : ∀ triple ∈ before, Agreed m0 F triple) : ∀ triple ∈ after, Agreed m0 F triple := by
  intro triple ht
  rcases h triple ht with ht | ⟨k, e, he, hlow, hhigh, heq⟩
  · exact hbefore triple ht
  · have hk := (List.getElem?_eq_some_iff.mp he).1
    have hP := hcommitted k hlow hhigh hk
    rw [take_succ_of_getElem? he] at hP
    refine ⟨X.take k, e, u, hP, ?_⟩
    rw [length_take_of_le hk.le]
    exact heq

variable {In : N → RaftMsg N C → Prop} {G : SnapshotRules N C S} {sent : List (Out N C)}

section Replica

variable {a a' : State N (LogEntry N C)} {c : Vital N C S} {synced : List (LogEntry N C)}

/-- The synced entries of a replica are those of its node in the synced state. -/
def SyncedIn (synced : List (LogEntry N C)) (nd : Node N (LogEntry N C)) : Prop :=
  ∀ e ∈ synced, nd.log[e.index - 1]? = some e

variable (ha : Reachable m0 a) (hrun : LocalRun m0 n a a') (hsim : Sim m0 a'.facts n (a'.node n) c)
  (hsynced : SyncedIn synced (a.node n)) (hdurable : Durable synced c)
  (hpending : ∀ triple ∈ c.pendingApply, Agreed m0 a.facts triple)

include ha hrun hsim

include hpending in
/-- A follower applies what the leader's message says is committed. -/
theorem Sim.accept_agreed {sender leader : N} {prev prevTerm leaderCommit : Nat} {entries : List (LogEntry N C)}
    (hmsg : Justifies m0 a.facts sender n (.appendEntries c.currentTerm leader prev prevTerm entries leaderCommit))
    (hrole : c.role = .follower) (hbase : c.snapshotIndex ≤ prev)
    (hmatch : prev = 0 ∨ prev ≤ c.lastLogIndex ∧ c.termAt prev = prevTerm) :
    ∀ triple ∈ (Vital.followCommit (entries.foldl Vital.appendStep (c, prev)).1 leaderCommit
      (entries.foldl Vital.appendStep (c, prev)).2).pendingApply, Agreed m0 a.facts triple := by
  obtain ⟨-, L, X', -, hknown, hlen, hmerged, hview⟩ :=
    hsim.merge (hrun.reachable ha) hrun.facts_subset hmsg hbase hmatch
  obtain ⟨_, _, _, _, _, _, _, _, heq⟩ := Vital.foldl_appendStep_eq entries c prev
  generalize entries.foldl Vital.appendStep (c, prev) = r at *
  obtain ⟨d, idx⟩ := r
  dsimp only at *
  have hpending' : ∀ triple ∈ d.pendingApply, Agreed m0 a.facts triple := by
    rw [heq]
    exact hpending
  unfold Vital.followCommit
  split
  · have hheld := hmerged.prefix_merged
    have hreach := hheld.length_le
    rw [length_take_of_le hlen] at hreach
    have hle : min leaderCommit idx ≤ idx := Nat.min_le_right _ _
    have hview' : View m0 X' { d with commitIndex := min leaderCommit idx } :=
      { hview with }
    have hfrontier : ({ d with commitIndex := min leaderCommit idx } : Vital N C S).applyFrontier =
      min leaderCommit idx := by
      have hidle : d.role ≠ .leader := by
        rw [heq]
        change c.role ≠ .leader
        rw [hrole]
        simp
      exact if_neg hidle
    obtain ⟨-, -, hgains⟩ := hview'.apply (by rw [heq]; exact hsim.based)
      (by rw [hfrontier]; exact hle.trans hreach)
    rw [hfrontier] at hgains
    refine hgains.agreed (u := c.currentTerm) (fun k _ hhigh _ => ?_) hpending'
    rw [take_eq_of_prefix_take hheld hlen (by omega)]
    exact (hknown.restrict (take_prefix_take_left (by omega))).committed ha.inv.sound
  · exact hpending'

include hsynced hdurable

omit [StateMachine C S] in
/-- What a core has committed and synced is committed without its unsynced steps. -/
theorem Sim.committed_of_durable {k : Nat} (hbase : c.snapshotIndex ≤ k)
    (hcommit : k + 1 ≤ c.commitIndex) (hcovered : k + 1 ≤ c.durableIndex) :
    Committed m0 a.facts c.currentTerm ((a'.node n).log.take (k + 1)) := by
  have ha' := hrun.reachable ha
  have hlen := hsim.commit_le ha'
  have hk : k < (a'.node n).log.length := by omega
  have hget := getElem?_eq_getElem hk
  have hindex := hsim.view.indexed.index_eq hget
  have hmem := hdurable.covered _ (hsim.view.mem_log hget hbase) (by omega)
  have hold := hsynced _ hmem
  rw [hindex, Nat.add_sub_cancel] at hold
  have hlenold : k < (a.node n).log.length := (List.getElem?_eq_some_iff.mp hold).1
  -- both logs have the synced entry at this position, so they agree up to it
  have htake : (a'.node n).log.take (k + 1) = (a.node n).log.take (k + 1) := by
    refine ha'.inv.sound.take_eq_of_lastTerm_eq (ha'.inv.log n).good
      ((ha.inv.log n).good.mono hrun.facts_subset) hk hlenold ?_
    rw [take_succ_of_getElem? hget, take_succ_of_getElem? hold, lastTerm_snoc, lastTerm_snoc]
  rw [hsim.term]
  refine hrun.committed_before ha ?_ (htake ▸ take_prefix _ _)
  rw [← hsim.commit]
  exact take_prefix_take_left hcommit

include hpending

/-- An apply that stays below the watermark applies committed entries. -/
theorem Sim.apply_agreed (hfrontier : c.applyFrontier ≤ c.durableIndex) :
    ∀ triple ∈ c.apply.pendingApply, Agreed m0 a.facts triple := by
  have hle : c.applyFrontier ≤ c.commitIndex := by
    unfold Ledger.applyFrontier
    split
    · exact Nat.min_le_left _ _
    · exact le_rfl
  have hcommit := hsim.commit_le (hrun.reachable ha)
  have hbase := hsim.based
  obtain ⟨-, -, hgains⟩ := hsim.view.apply hbase (hle.trans hcommit)
  exact hgains.agreed (fun k hlow hhigh _ => Sim.committed_of_durable ha hrun hsim hsynced hdurable
    (by omega) (by omega) (by omega)) hpending

/-- Every move leaves only committed entries to be applied. -/
theorem Move.agreed {d : Vital N C S} (hin : ∀ s m, In s m → Justifies m0 a.facts s n m)
    (hmove : Move In G c d sent) : ∀ triple ∈ d.pendingApply, Agreed m0 a.facts triple := by
  cases hmove with
  | lead | append =>
    rw [Vital.pushEntry_eq]
    exact hpending
  | apply hrole =>
    refine Sim.apply_agreed ha hrun hsim hsynced hdurable hpending ?_
    rw [Ledger.applyFrontier, if_pos hrole]
    exact Nat.min_le_right _ _
  | accept _ _ _ _ _ _ _ _ _ _ hmsg hrole hbase hmatch =>
    exact Sim.accept_agreed ha hrun hsim hpending (hin _ _ hmsg) hrole hbase hmatch
  | install _ _ inc _ _ _ _ _ _ config learners metadata =>
    obtain ⟨_, _, _, _, _, _, heq⟩ := Vital.install_eq
      { c with incomingSnapshot := none, metadata := metadata } inc config learners
    rw [heq]
    exact hpending
  | _ => exact hpending

/-- A sequence of moves leaves only committed entries to be applied. -/
theorem Moves.agreed {d : Vital N C S} (hrules : ∀ c inc lastIndex, G.install c inc lastIndex →
      c.KeepsLog inc lastIndex ∧ c.durableIndex ≤ inc.lastIndex)
    (hin : ∀ s m, In s m → m.Shaped ∧ Justifies m0 a.facts s n m) (hmoves : Moves In G c d sent) :
    ∀ triple ∈ d.pendingApply, Agreed m0 a.facts triple := by
  have hstep := Moves.preserves (Q := fun _ => True) (P := fun v =>
      (∃ b, LocalRun m0 n a b ∧ Sim m0 b.facts n (b.node n) v) ∧ Durable synced v ∧
        ∀ triple ∈ v.pendingApply, Agreed m0 a.facts triple) ?_ hmoves
      ⟨⟨a', hrun, hsim⟩, hdurable, hpending⟩
  · exact hstep.1.2.2
  · rintro v w out ⟨⟨b, hrunb, hsimb⟩, hdur, hpend⟩ hmove
    obtain ⟨-, b', hrun', hsim', -⟩ := hsimb.move (fun c inc li h => (hrules c inc li h).1)
      (fun s m hm => ⟨(hin s m hm).1, (hin s m hm).2.mono hrunb.facts_subset⟩)
      (hrunb.reachable ha) hmove
    exact ⟨⟨⟨b', hrunb.trans hrun', hsim'⟩,
      hdur.move (fun s m hm => (hin s m hm).1) (fun c inc li h => (hrules c inc li h).2) hsimb.shaped hmove,
      hmove.agreed ha hrunb hsimb hsynced hdur hpend fun s m hm => (hin s m hm).2⟩,
      fun _ _ => trivial⟩

end Replica

variable {boot : Bootstrap N} {a : State N (LogEntry N C)} {g g' : Group N C S}

/-- The rules of installs that keep the log and the watermark. -/
def safeRules : SnapshotRules N C S where
  compact := True
  install c inc lastIndex := c.KeepsLog inc lastIndex ∧ c.durableIndex ≤ inc.lastIndex
  stable _ _ _ _ _ _ _ h := h

theorem RaftCore.installMeets_safeRules {c : RaftCore N C S} {msg : RaftMsg N C}
    (hlog : c.installKeepsLog msg = true) (hdurable : c.installKeepsDurable msg = true) :
    c.InstallMeets safeRules msg := by
  have hlog := RaftCore.installKeepsLog_meets hlog
  have hdurable := RaftCore.installKeepsDurable_meets hdurable
  cases msg with
  | installSnapshot => exact fun inc hinc => ⟨hlog inc hinc, hdurable inc hinc⟩
  | _ => trivial

/-- The group follows the protocol, and everything that a replica has applied is committed in the
synced state. -/
structure Group.Agrees (boot : Bootstrap N) (a : State N (LogEntry N C)) (g : Group N C S) : Prop where
  follows : g.Follows boot a
  durable : ∀ n, (g.replica n).Durable
  pending : ∀ n, ∀ triple ∈ (g.replica n).core.pendingApply, Agreed boot.allNodes.toFinset a.facts triple
  drained : ∀ triple ∈ g.drained, Agreed boot.allNodes.toFinset a.facts triple

theorem Group.Follows.syncedIn (h : g.Follows boot a) (n : N) :
    SyncedIn (PersistedState.replay (g.replica n).wal).log (a.node n) := by
  intro e he
  have hlog := (boot.recover_mirrors n (g.replica n).wal 0 0 (h.kept.replicas n).stored).log
  rw [hlog] at he
  exact ((h.saved n 0 0).view.getElem?_of_mem he).1

theorem Group.Agrees.perform (h : g.Agrees boot a) (n : N) {op : Op N C}
    (hmeets : (g.replica n).core.SnapshotsMeet safeRules op)
    (hin : ∀ s m, op.Reads s m → m.Shaped ∧ Justifies boot.allNodes.toFinset a.facts s n m) :
    ∀ triple ∈ ((g.replica n).perform op).core.pendingApply,
      Agreed boot.allNodes.toFinset a.facts triple := by
  obtain ⟨a', hrun, hsim, -⟩ := h.follows.replicas n
  exact Moves.agreed h.follows.reachable hrun hsim (h.follows.syncedIn n) (h.durable n) (h.pending n)
    (fun _ _ _ hinstall => hinstall) hin ((g.replica n).core.perform_moves op hmeets)

theorem Group.Agrees.markDurable (h : g.Agrees boot a) (n : N) {index : Nat} (hcovers : (g.replica n).Covers index)
    (hmarks : (g.replica n).core.role = .leader ∨ (g.replica n).core.commitIndex ≤ index) :
    ∀ triple ∈ ((g.replica n).core.markDurableThrough index).pendingApply,
      Agreed boot.allNodes.toFinset a.facts triple := by
  obtain ⟨a', hrun, hsim, -⟩ := h.follows.replicas n
  change ∀ triple ∈ ((g.replica n).core.toVital.markDurableThrough index).pendingApply, _
  unfold Vital.markDurableThrough
  split
  · have hsettled := hsim.settle index (g.replica n).core.pendingApply (g.replica n).core.pending
      (g.replica n).core.persistedHard (g.replica n).core.snapshotDirty
      (g.replica n).core.installRewriteOwed
    refine hsettled.apply_agreed h.follows.reachable hrun (h.follows.syncedIn n) ⟨hcovers.1, hcovers.2⟩
      (h.pending n) ?_
    unfold Ledger.applyFrontier
    split
    · exact Nat.min_le_right _ _
    · exact hmarks.resolve_left ‹_›
  · exact h.pending n

theorem Group.Agrees.start (boot : Bootstrap N) (clock : N → Nanos × Nat) :
    (Group.start boot clock : Group N C S).Agrees boot State.initial where
  follows := .start boot clock
  durable := (Group.DurableKept.start boot clock).durable
  pending _ _ ht := by cases ht
  drained _ ht := by cases ht

/-- What a leader has committed and synced is committed in the synced state, in its term. -/
theorem Group.Agrees.leader_committed (h : g.Agrees boot a) {n : N} {e : LogEntry N C}
    (he : e ∈ (g.replica n).core.log) (hcommit : e.index ≤ (g.replica n).core.commitIndex)
    (hsynced : e.index ≤ (g.replica n).core.durableIndex) :
    ∃ P, Committed boot.allNodes.toFinset a.facts (g.replica n).core.currentTerm P ∧ P[e.index - 1]? = some e := by
  obtain ⟨a', hrun, hsim, -⟩ := h.follows.replicas n
  obtain ⟨hget, hbase⟩ := hsim.view.getElem?_of_mem he
  refine ⟨(a'.node n).log.take (e.index - 1 + 1), Sim.committed_of_durable h.follows.reachable hrun
    hsim (h.follows.syncedIn n) (h.durable n) (by omega) (by omega) (by omega), ?_⟩
  rw [getElem?_take, if_pos (by omega), hget]

/-- A leader of a later term than the one in which an entry was committed holds it, or has compacted
it away. -/
theorem Group.Follows.leader_holds (h : g.Follows boot a) {v : N} {t : Nat} {e : LogEntry N C}
    {P : List (LogEntry N C)} (hP : Committed boot.allNodes.toFinset a.facts t P)
    (hget : P[e.index - 1]? = some e) (hrole : (g.replica v).core.role = .leader)
      (hterm : t < (g.replica v).core.currentTerm) :
    e ∈ (g.replica v).core.log ∨ e.index ≤ (g.replica v).core.snapshotIndex := by
  obtain ⟨a', hrun, hsim, -⟩ := h.replicas v
  have hheld : P <+: (a'.node v).log :=
    (hrun.reachable h.reachable).inv.committed_in_leader (hsim.leading hrole)
      (hP.weaken hrun.facts_subset le_rfl) (hsim.term ▸ hterm)
  have hlog : (a'.node v).log[e.index - 1]? = some e := by
    rw [← hget, List.prefix_iff_eq_take.mp hheld, List.getElem?_take,
      if_pos (List.getElem?_eq_some_iff.mp hget).1]
  rcases Nat.lt_or_ge (g.replica v).core.snapshotIndex e.index with hlt | hge
  · exact .inl (hsim.view.mem_log hlog (by omega))
  · exact .inr hge

variable [DecidableEq C]

/-- A replica that does not lead and is told how far its WAL is synced has synced all that it knows
to be committed. -/
def Group.MarksCommitted (g : Group N C S) : Event N C → Prop
  | .markDurable node index =>
    (g.replica node).core.role = .leader ∨ (g.replica node).core.commitIndex ≤ index
  | _ => True

/-- Installs keep the log and the watermark of their receiver, and what a replica learns to be synced
takes it no further than the synced entries. -/
def Group.SafeStep (g : Group N C S) (ev : Event N C) : Prop :=
  g.KeepsLog ev ∧ g.KeepsWatermark ev ∧ g.MarksCommitted ev

instance Group.decidableSafeStep (g : Group N C S) (ev : Event N C) : Decidable (g.SafeStep ev) :=
  have : Decidable (g.MarksCommitted ev) := by
    unfold Group.MarksCommitted
    cases ev <;> infer_instance
  instDecidableAnd

/-- What an event leaves to be applied was committed in the synced state before it. -/
theorem Group.Agrees.step_pending (h : g.Agrees boot a) {ev : Event N C} (hsafe : g.SafeStep ev)
    (hstep : g.step boot ev = some g') (n : N) :
    ∀ triple ∈ (g'.replica n).core.pendingApply, Agreed boot.allNodes.toFinset a.facts triple := by
  obtain ⟨hlog, hwatermark, hmarks⟩ := hsafe
  refine Group.step_replicas hstep (P := fun _ r => ∀ triple ∈ r.core.pendingApply,
    Agreed boot.allNodes.toFinset a.facts triple) h.pending (fun node _ _ hturn => ?_) n
  cases hturn with
  | act hlocal =>
    exact h.perform node (RaftCore.snapshotsMeet_of_local _ hlocal trivial) fun s m hreads =>
      (hlocal s m hreads).elim
  | deliver hp =>
    have hmem := mem_of_getElem? hp
    simp only [Group.KeepsLog, Group.delivery, hp, all_some] at hlog
    simp only [Group.KeepsWatermark, Group.delivery, hp, all_some] at hwatermark
    refine h.perform _ (RaftCore.installMeets_safeRules hlog hwatermark) fun s m hreads => ?_
    obtain ⟨_, _, heq⟩ := hreads
    cases heq
    exact ⟨h.follows.kept.net _ hmem, (h.follows.net _ hmem).msg⟩
  | drainApply => exact fun triple ht => by cases ht
  | sync =>
    obtain ⟨_, _, _, hcore, -⟩ := (g.replica node).persist_core _
    rw [hcore]
    exact h.pending node
  | markDurable hcovers => exact h.markDurable node hcovers hmarks
  | crash now entropy =>
    have hnone := (boot.recover_counters (g.replica node).core.id (g.replica node).wal now entropy).2.2.2.2
    intro triple ht
    rw [show ((g.replica node).crash boot now entropy).core.pendingApply = [] from hnone] at ht
    cases ht

theorem Group.Agrees.step (h : g.Agrees boot a) {ev : Event N C} (hsafe : g.SafeStep ev)
    (hstep : g.step boot ev = some g') : ∃ b, a.facts ⊆ b.facts ∧ g'.Agrees boot b := by
  obtain ⟨⟨b, hab, hfollows⟩, -⟩ := h.follows.step hsafe.1 hstep
  have hdurable := Group.DurableKept.step ⟨h.follows.kept, h.durable⟩ hsafe.2.1 hstep
  refine ⟨b, hab, hfollows, hdurable.durable,
    fun n triple ht => (h.step_pending hsafe hstep n triple ht).mono hab, fun triple ht => ?_⟩
  obtain ⟨node, _, _, -, -, -, hdrained⟩ := Group.step_turn hstep
  rcases mem_append.mp (hdrained ht) with ht | ht
  · exact (h.drained triple ht).mono hab
  · exact (h.pending node triple ht).mono hab

/-- What every replica applies along a run of safe steps is committed. -/
theorem Group.Agrees.run (h : g.Agrees boot a) {evs : List (Event N C)}
    (hmeets : g.RunMeets boot Group.SafeStep evs) (hrun : g.run boot evs = some g') :
    ∃ b, a.facts ⊆ b.facts ∧ g'.Agrees boot b := by
  refine Group.run_preserves Group.SafeStep (P := fun g => ∃ b, a.facts ⊆ b.facts ∧ g.Agrees boot b)
    (fun g ev g' hP hsafe hstep => ?_) ⟨a, subset_rfl, h⟩ hmeets hrun
  obtain ⟨b, hab, hb⟩ := hP
  obtain ⟨b', hbb, hb'⟩ := hb.step hsafe hstep
  exact ⟨b', hab.trans hbb, hb'⟩

/-- In every run of safe steps: an entry that a leader has committed and synced is held, or compacted
away, by every leader of a later term, however the run goes on; and whatever replicas drain at one
index is equal. -/
theorem committed_entries_agree (boot : Bootstrap N) (clock : N → Nanos × Nat) (evs : List (Event N C))
    (g : Group N C S) (hmeets : (Group.start boot clock : Group N C S).RunMeets boot Group.SafeStep evs)
    (hrun : (Group.start boot clock).run boot evs = some g) :
    (∀ n, ∀ e ∈ (g.replica n).core.log, (g.replica n).core.role = .leader →
      e.index ≤ (g.replica n).core.commitIndex → e.index ≤ (g.replica n).core.durableIndex →
      ∀ more g', g.RunMeets boot Group.SafeStep more → g.run boot more = some g' →
        ∀ v, (g'.replica v).core.role = .leader →
        (g.replica n).core.currentTerm < (g'.replica v).core.currentTerm →
          e ∈ (g'.replica v).core.log ∨ e.index ≤ (g'.replica v).core.snapshotIndex) ∧
    ∀ x ∈ g.drained, ∀ y ∈ g.drained, x.1 = y.1 → x = y := by
  obtain ⟨a, -, hagrees⟩ := (Group.Agrees.start boot clock).run hmeets hrun
  constructor
  · intro n e he _ hcommit hsynced more g' hmore hrun' v hrole hterm
    obtain ⟨P, hP, hget⟩ := hagrees.leader_committed he hcommit hsynced
    obtain ⟨b, hab, hagrees'⟩ := hagrees.run hmore hrun'
    exact hagrees'.follows.leader_holds (hP.weaken hab le_rfl) hget hrole hterm
  · intro x hx y hy hindex
    exact (hagrees.drained x hx).unique hagrees.follows.reachable.inv.sound (hagrees.drained y hy) hindex

/-- Replica 0 of two voters leads term 1 and has committed and synced two entries; then it hands its
leadership to replica 1, which leads term 2. -/
theorem committed_entries_agree_handover : ∃ (g g' : Group Nat Command Unit) (e : LogEntry Nat Command),
      (Group.start duo zeroClock).run duo (handoverRun.take 21 ++ [.markDurable 0 2]) = some g ∧
      g.run duo ((handoverRun.drop 21).take 8) = some g' ∧ e ∈ (g.replica 0).core.log ∧
      e.index = 2 ∧ (g'.replica 1).core.role = .leader ∧
      (e ∈ (g'.replica 1).core.log ∨ e.index ≤ (g'.replica 1).core.snapshotIndex) := by
  have hmeets : (Group.start duo zeroClock : Group Nat Command Unit).RunMeets duo Group.SafeStep
      (handoverRun.take 21 ++ [.markDurable 0 2]) := by decide +kernel
  obtain ⟨g, hg, hmore, hrole, g', hg', hrole', hterm, e, hmem, hindex, hcommit, hsynced⟩ :
      ∃ g : Group Nat Command Unit, g ∈ (Group.start duo zeroClock).run duo
      (handoverRun.take 21 ++ [.markDurable 0 2]) ∧
        g.RunMeets duo Group.SafeStep ((handoverRun.drop 21).take 8) ∧ (g.replica 0).core.role = .leader ∧
        ∃ g' ∈ g.run duo ((handoverRun.drop 21).take 8), (g'.replica 1).core.role = .leader ∧
          (g.replica 0).core.currentTerm < (g'.replica 1).core.currentTerm ∧ ∃ e ∈ (g.replica 0).core.log,
          e.index = 2 ∧
            e.index ≤ (g.replica 0).core.commitIndex ∧
            e.index ≤ (g.replica 0).core.durableIndex := by decide +kernel
  have hagree := committed_entries_agree duo zeroClock (handoverRun.take 21 ++ [.markDurable 0 2]) g hmeets hg
  exact ⟨g, g', e, hg, hg', hmem, hindex, hrole',
    hagree.1 0 e hmem hrole hcommit hsynced _ g' hmore hg' 1 hrole' hterm⟩

/-- A single voter commits what it proposes before it is synced: a crash loses the entry, and the
voter leads the next term without it. -/
theorem committed_entry_lost : ∃ (g g' : Group Nat Command Unit) (e : LogEntry Nat Command),
      (Group.start solo zeroClock).run solo [.act 0 (.tick late 0 true), .sync 0 false,
        .markDurable 0 1, .act 0 (.propose (.write 7))] = some g ∧
      g.run solo [.crash 0 late 0, .act 0 (.tick (late + late) 0 true)] = some g' ∧
      (g.replica 0).core.role = .leader ∧ e ∈ (g.replica 0).core.log ∧
      e.index ≤ (g.replica 0).core.commitIndex ∧ (g'.replica 0).core.role = .leader ∧
      (g.replica 0).core.currentTerm < (g'.replica 0).core.currentTerm ∧
      e ∉ (g'.replica 0).core.log ∧ (g'.replica 0).core.snapshotIndex < e.index := by
  simp only [exists_and_left, ← Option.mem_def]
  decide +kernel

end AnimusDb.Raft
