import AnimusDb.GroupSim

/-! What replicas keep as long as no install cuts off a part of the log: the entries they
acknowledged in their term, the shape of the log, and the order of the counters. -/

open QuorumSets LogConsensus List Option

namespace AnimusDb.Raft

variable {N C S : Type} [LinearOrder N] [StateMachine C S] {a : State N (LogEntry N C)}

section Acknowledged

omit [StateMachine C S] in
/-- What a replica acknowledged in the term that it is in is in its log or below its base. -/
theorem Packet.Justified.kept {m0 : Finset N} {c : Vital N C S}
    {p : Packet N C} (hp : p.Justified m0 a.facts) (ha : Reachable m0 a)
    (hsim : Sim m0 a.facts p.src (a.node p.src) c) {t index : Nat} {needs check : Bool}
    {applied : Nat} (hmsg : p.msg = .appendEntriesResp t true index needs check applied)
    (hterm : c.currentTerm = t) {e : LogEntry N C} (he : e ∈ p.held) (hle : e.index ≤ index) :
    e ∈ c.log ∨ e.index ≤ c.snapshotIndex := by
  obtain ⟨A, hA, hget⟩ := hp.held t index needs check applied hmsg e he hle
  have hkept : A <+: (a.node p.src).log := by
    refine (ha.inv.ack p.src).kept hA prefix_rfl ?_
    intro t' c' B' V' _ hlt hle'
    rw [← hsim.term] at hle'
    omega
  have hlen : e.index - 1 < A.length := (List.getElem?_eq_some_iff.mp hget).1
  have hlog : (a.node p.src).log[e.index - 1]? = some e := by
    rw [← hget, prefix_iff_eq_take.mp hkept, getElem?_take, if_pos hlen]
  rcases Nat.lt_or_ge c.snapshotIndex e.index with hlt | hge
  · exact .inl (hsim.view.mem_log hlog (by omega))
  · exact .inr hge

/-- The term and the match index of a message that acknowledges entries. -/
def RaftMsg.acks : RaftMsg N C → Option (Nat × Nat)
  | .appendEntriesResp term true index _ _ _ => some (term, index)
  | _ => none

variable [DecidableEq C]

/-- In every run whose installs keep the log: as long as a replica is in the term in which it
acknowledged entries, it holds what it held of them, or has it below its base. -/
theorem acknowledged_entries_kept (boot : Bootstrap N) (clock : N → Nanos × Nat) (evs : List (Event N C))
    (g : Group N C S) (hmeets : (Group.start boot clock : Group N C S).RunMeets boot Group.KeepsLog evs)
    (hrun : (Group.start boot clock).run boot evs = some g) (p : Packet N C)
    (hp : p ∈ g.net ∨ p ∈ (g.replica p.src).outbox) (t index : Nat)
    (hmsg : p.msg.acks = some (t, index)) (hterm : (g.replica p.src).core.currentTerm = t) :
      ∀ e ∈ p.held, e.index ≤ index →
      e ∈ (g.replica p.src).core.log ∨ e.index ≤ (g.replica p.src).core.snapshotIndex := by
  intro e he hle
  obtain ⟨needs, check, applied, hmsg⟩ :
    ∃ needs check applied, p.msg = .appendEntriesResp t true index needs check applied := by
    unfold RaftMsg.acks at hmsg
    split at hmsg <;> cases hmsg
    exact ⟨_, _, _, by assumption⟩
  obtain ⟨a, -, hfollows⟩ := (Group.Follows.start boot clock).run hmeets hrun
  obtain ⟨a', hlocal, hsim, hout⟩ := hfollows.replicas p.src
  have hjust : p.Justified boot.allNodes.toFinset a'.facts := by
    rcases hp with hp | hp
    · exact (hfollows.net p hp).mono hlocal.facts_subset
    · exact hout p hp
  exact hjust.kept (hlocal.reachable hfollows.reachable) hsim hmsg hterm he hle

/-- Replica 1 of `offerRun` has acknowledged two entries when it is offered the image. -/
theorem acknowledged_entries_kept_offered : ∃ (g : Group Nat Command Unit) (p : Packet Nat Command),
      (Group.start duo zeroClock).run duo offerRun = some g ∧ p ∈ g.net ∧ p.src = 1 ∧
        p.held.length = 2 ∧ ∀ e ∈ p.held, e.index ≤ 2 →
          e ∈ (g.replica p.src).core.log ∨ e.index ≤ (g.replica p.src).core.snapshotIndex := by
  have hmeets : (Group.start duo zeroClock : Group Nat Command Unit).RunMeets duo Group.KeepsLog
    offerRun := by decide +kernel
  obtain ⟨g, hg, p, hmem, hsrc, hheld, hterm, hacks⟩ :
    ∃ g : Group Nat Command Unit, g ∈ (Group.start duo zeroClock).run duo offerRun ∧
      ∃ p ∈ g.net, p.src = 1 ∧ p.held.length = 2 ∧ (g.replica p.src).core.currentTerm = 1 ∧
      p.msg.acks = some (1, 2) := by
    decide +kernel
  exact ⟨g, p, hg, hmem, hsrc, hheld, acknowledged_entries_kept duo zeroClock offerRun g hmeets hg p
    (.inl hmem) 1 2 hacks hterm⟩

/-- Delivering the offered image takes the second entry, which replica 1 acknowledged in its current
term, out of its log. -/
theorem acknowledged_entry_lost :
    ∃ (g : Group Nat Command Unit) (p : Packet Nat Command) (e : LogEntry Nat Command),
      (Group.start duo zeroClock).run duo (offerRun ++ [.deliver 9 late 0]) = some g ∧
        p ∈ g.net ∧ p.msg.acks = some (1, 2) ∧ (g.replica p.src).core.currentTerm = 1 ∧
        e ∈ p.held ∧ e.index ≤ 2 ∧ e ∉ (g.replica p.src).core.log ∧
          (g.replica p.src).core.snapshotIndex < e.index := by
  simp only [exists_and_left, ← Option.mem_def]
  decide +kernel

end Acknowledged

/-- The shape of a core's log and the order of its counters; no unchecked index went out of range. -/
structure Vital.Sound (c : Vital N C S) : Prop where
  contiguous : Contiguous c.snapshotIndex c.log
  ordered : c.log.Pairwise fun x y => x.term ≤ y.term
  termLe : ∀ e ∈ c.log, e.term ≤ c.currentTerm
  based : c.snapshotIndex ≤ c.lastApplied
  applied : c.lastApplied ≤ c.commitIndex
  commit : c.commitIndex ≤ c.lastLogIndex
  sane : c.panicked = false

omit [StateMachine C S] in
theorem Sim.sound {m0 : Finset N} {n : N} {c : Vital N C S}
    (ha : Reachable m0 a) (h : Sim m0 a.facts n (a.node n) c) : c.Sound where
  contiguous := h.view.contiguous
  ordered := by
    rw [h.view.log]
    exact (ha.inv.log n).ordered.sublist (drop_sublist _ _)
  termLe e he := by
    rw [h.view.log] at he
    rw [h.term]
    exact (ha.inv.log n).termLe e (mem_of_mem_drop he)
  based := h.based
  applied := h.applied
  commit := by
    rw [h.view.lastLogIndex]
    exact h.commit_le ha
  sane := h.sane

/-- One state of the protocol shows the logs of any two replicas: what one does before its sync can
be done after what the other does. -/
theorem Group.Follows.views {boot : Bootstrap N} {g : Group N C S} (h : g.Follows boot a) (n v : N) :
    ∃ b, Inv boot.allNodes.toFinset b ∧
    View boot.allNodes.toFinset (b.node n).log (g.replica n).core.toVital ∧
      View boot.allNodes.toFinset (b.node v).log (g.replica v).core.toVital := by
  obtain ⟨b, hrun, hsim, -⟩ := h.replicas n
  by_cases hv : v = n
  · subst hv
    exact ⟨b, (hrun.reachable h.reachable).inv, hsim.view, hsim.view⟩
  · obtain ⟨b', hrun', hsim', -⟩ := (h.replicas v).lift hrun hv
    refine ⟨b', (hrun'.reachable (hrun.reachable h.reachable)).inv, ?_, hsim'.view⟩
    rw [hrun'.node_of_ne (Ne.symm hv)]
    exact hsim.view

variable [DecidableEq C]

/-- The counters of a replica that does not crash do not go back. -/
theorem Group.Follows.run_grows {boot : Bootstrap N} {g g' : Group N C S} {evs : List (Event N C)}
    (h : g.Follows boot a) (hmeets : g.RunMeets boot Group.KeepsLog evs)
    (hrun : g.run boot evs = some g') {n : N} (halive : ∀ ev ∈ evs, ¬ ev.Crashes n) :
    (g.replica n).core.toVital.Grows (g'.replica n).core.toVital := by
  induction evs generalizing g a with
  | nil =>
    cases hrun
    exact .refl _
  | cons ev rest ih =>
    simp only [Group.run, bind_eq_bind, bind_eq_some_iff] at hrun
    obtain ⟨h₁, hstep, hrest⟩ := hrun
    obtain ⟨hkeeps, hmeets⟩ := hmeets
    rw [hstep] at hmeets
    obtain ⟨⟨b, -, hb⟩, hgrows⟩ := h.step hkeeps hstep
    exact (hgrows n (halive ev mem_cons_self)).trans
      (ih hb hmeets hrest fun x hx => halive x (mem_cons_of_mem _ hx))

/-- In every run whose installs keep the log, every core has a sound log, and its counters do not go
back until it crashes. -/
theorem log_structure_kept (boot : Bootstrap N) (clock : N → Nanos × Nat) (evs : List (Event N C))
    (g : Group N C S) (hmeets : (Group.start boot clock : Group N C S).RunMeets boot Group.KeepsLog evs)
    (hrun : (Group.start boot clock).run boot evs = some g) (n : N) :
    (g.replica n).core.toVital.Sound ∧ ∀ more g', g.RunMeets boot Group.KeepsLog more →
      g.run boot more = some g' → (∀ ev ∈ more, ¬ ev.Crashes n) →
        (g.replica n).core.toVital.Grows (g'.replica n).core.toVital := by
  obtain ⟨a, -, hfollows⟩ := (Group.Follows.start boot clock).run hmeets hrun
  obtain ⟨a', hlocal, hsim, -⟩ := hfollows.replicas n
  exact ⟨hsim.sound (hlocal.reachable hfollows.reachable),
    fun more g' hmore hrun' halive => hfollows.run_grows hmore hrun' halive⟩

theorem log_structure_kept_handover :
    ∃ g : Group Nat Command Unit, (Group.start duo zeroClock).run duo handoverRun = some g ∧
      (g.replica 0).core.commitIndex = 2 ∧ (g.replica 0).core.log.length = 3 ∧
      (g.replica 0).core.toVital.Sound := by
  have hmeets : (Group.start duo zeroClock : Group Nat Command Unit).RunMeets duo Group.KeepsLog
    handoverRun := by decide +kernel
  obtain ⟨g, hg, hcommit, hlength⟩ :
    ∃ g : Group Nat Command Unit, g ∈ (Group.start duo zeroClock).run duo handoverRun ∧
      (g.replica 0).core.commitIndex = 2 ∧ (g.replica 0).core.log.length = 3 := by decide +kernel
  exact ⟨g, hg, hcommit, hlength, (log_structure_kept duo zeroClock handoverRun g hmeets hg 0).1⟩

/-- Delivering the offered image sets the commit index of replica 0 back from 2 to 1. -/
theorem commit_index_set_back :
    ∃ g g' : Group Nat Command Unit, (Group.start duo zeroClock).run duo handoverRun = some g ∧
      g.step duo (.deliver 15 (late + 10 ^ 8) 0) = some g' ∧
      (g'.replica 0).core.commitIndex < (g.replica 0).core.commitIndex := by
  simp only [exists_and_left, ← Option.mem_def]
  decide +kernel

/-- Log matching: in every run whose installs keep the log, two replicas that hold an entry of one index
and term hold the same entries up to it. -/
theorem log_matching (boot : Bootstrap N) (clock : N → Nanos × Nat) (evs : List (Event N C)) (g : Group N C S)
    (hmeets : (Group.start boot clock : Group N C S).RunMeets boot Group.KeepsLog evs)
    (hrun : (Group.start boot clock).run boot evs = some g) (n v : N) :
    ∀ e ∈ (g.replica n).core.log, ∀ f ∈ (g.replica v).core.log, e.index = f.index → e.term = f.term →
      ∀ x ∈ (g.replica n).core.log, ∀ y ∈ (g.replica v).core.log,
      x.index = y.index → x.index ≤ e.index → x = y := by
  intro e he f hf hindex hterm x hx y hy hxy hle
  obtain ⟨a, -, hfollows⟩ := (Group.Follows.start boot clock).run hmeets hrun
  obtain ⟨b, hinv, hn, hv⟩ := hfollows.views n v
  obtain ⟨hgete, -⟩ := hn.getElem?_of_mem he
  obtain ⟨hgetf, -⟩ := hv.getElem?_of_mem hf
  rw [← hindex] at hgetf
  have hsame : (b.node n).log.take (e.index - 1 + 1) = (b.node v).log.take (e.index - 1 + 1) := by
    refine hinv.sound.take_eq_of_lastTerm_eq (hinv.log n).good (hinv.log v).good
      (List.getElem?_eq_some_iff.mp hgete).1 (List.getElem?_eq_some_iff.mp hgetf).1 ?_
    rw [take_succ_of_getElem? hgete, take_succ_of_getElem? hgetf, lastTerm_snoc, lastTerm_snoc]
    exact hterm
  have hi : x.index - 1 < e.index - 1 + 1 := by omega
  have hget := congrArg (·[x.index - 1]?) hsame
  rw [getElem?_take_of_lt hi, getElem?_take_of_lt hi, (hn.getElem?_of_mem hx).1, hxy,
    (hv.getElem?_of_mem hy).1] at hget
  exact Option.some.inj hget

theorem log_matching_handover :
    ∃ g : Group Nat Command Unit, (Group.start duo zeroClock).run duo handoverRun = some g ∧
      ∃ e ∈ (g.replica 0).core.log, e ∈ (g.replica 1).core.log ∧ e.index = 3 ∧ ∀ x ∈ (g.replica 0).core.log,
        ∀ y ∈ (g.replica 1).core.log, x.index = y.index → x.index ≤ e.index → x = y := by
  have hmeets : (Group.start duo zeroClock : Group Nat Command Unit).RunMeets duo Group.KeepsLog
    handoverRun := by decide +kernel
  obtain ⟨g, hg, e, he, hf, hindex⟩ :
    ∃ g : Group Nat Command Unit, g ∈ (Group.start duo zeroClock).run duo handoverRun ∧
      ∃ e ∈ (g.replica 0).core.log, e ∈ (g.replica 1).core.log ∧ e.index = 3 := by decide +kernel
  exact ⟨g, hg, e, he, hf, hindex, log_matching duo zeroClock handoverRun g hmeets hg 0 1 e he e hf rfl rfl⟩

end AnimusDb.Raft
