import AnimusDb.RaftDurable
import AnimusDb.RaftSimMoves

/-! Groups follow the protocol. The synced part of a group stands for a reachable state of the
protocol; every replica is a run of local steps ahead of it, which a sync makes part of the common
state and a crash takes back. -/

open QuorumSets LogConsensus List Option

namespace AnimusDb.Raft

variable {N C S : Type} [LinearOrder N] [StateMachine C S] {m0 : Finset N} {n : N}

/-- The rules of installs that keep the log. -/
def keepLogRules : SnapshotRules N C S where
  compact := True
  install c inc lastIndex := c.KeepsLog inc lastIndex
  stable _ _ _ _ _ _ _ h := h

variable {a : State N (LogEntry N C)}

variable {c d : Vital N C S}

/-- A sequence of moves of a core whose installs keep the log is followed by the protocol. -/
theorem Sim.moves {In : N → RaftMsg N C → Prop} {G : SnapshotRules N C S} {sent : List (Out N C)}
    (hrules : ∀ c inc lastIndex, G.install c inc lastIndex → c.KeepsLog inc lastIndex)
    (hin : ∀ s m, In s m → m.Shaped ∧ Justifies m0 a.facts s n m) (ha : Reachable m0 a)
    (h : Sim m0 a.facts n (a.node n) c) (hmoves : Moves In G c d sent) : Tracks m0 n a c d sent := by
  induction hmoves with
  | refl => exact .stay (.refl _) h (by simp)
  | tail _ hmove ih =>
    obtain ⟨hgrows, a', hrun, hsim, hsent⟩ := ih
    obtain ⟨hgrows', a'', hrun', hsim', hmore⟩ := hsim.move hrules
      (fun s m hm => ⟨(hin s m hm).1, (hin s m hm).2.mono hrun.facts_subset⟩)
      (hrun.reachable ha) hmove
    refine ⟨hgrows.trans hgrows', a'', hrun.trans hrun', hsim', forall_mem_append.mpr ⟨fun o ho => ?_, hmore⟩⟩
    exact (hsent o ho).mono hrun'.facts_subset

omit [StateMachine C S] in
/-- What the simulation does not read. -/
theorem Sim.settle {F : Set (Fact N (LogEntry N C))} {nd : Node N (LogEntry N C)}
    (h : Sim m0 F n nd c) (durableIndex : Nat) (pendingApply : List (Nat × Nat × C))
    (pending : List (WalRecord N C S)) (hard : Nat × Option N) (dirty owed : Bool) : Sim m0 F n nd { c with
      durableIndex := durableIndex, pendingApply := pendingApply, pending := pending, persistedHard := hard
      snapshotDirty := dirty
      installRewriteOwed := owed } :=
  { h with shaped := { h.shaped with }, view := { h.view with } }

theorem Sim.markDurable (ha : Reachable m0 a) (h : Sim m0 a.facts n (a.node n) c) (index : Nat) :
    Tracks m0 n a c (c.markDurableThrough index) [] := by
  unfold Vital.markDurableThrough
  split
  · have hsettled := h.settle index c.pendingApply c.pending c.persistedHard c.snapshotDirty c.installRewriteOwed
    obtain ⟨hgrows, hrest⟩ := hsettled.apply ha
    exact ⟨{ hgrows with }, hrest⟩
  · exact .stay (.refl c) h (by simp)

/-- What the synced records of a replica say of the protocol node: a core recovered from them keeps
its log, term and vote, and a committed base. -/
structure Saved (m0 : Finset N) (nd : Node N (LogEntry N C)) (c : Vital N C S) : Prop where
  view : View m0 nd.log c
  term : c.currentTerm = nd.term
  vote : c.votedFor = nd.vote
  base : c.snapshotIndex ≤ nd.commit

/-- A packet states facts, and what its sender held when it acknowledged entries is what it
acknowledged. -/
structure Packet.Justified (m0 : Finset N) (F : Set (Fact N (LogEntry N C))) (p : Packet N C) : Prop where
  msg : Justifies m0 F p.src p.dst p.msg
  held : ∀ t index needs check applied, p.msg = .appendEntriesResp t true index needs check applied →
    ∀ e ∈ p.held, e.index ≤ index → ∃ A, .ack t p.src p.dst A ∈ F ∧ A[e.index - 1]? = some e

omit [LinearOrder N] [StateMachine C S] in
theorem Packet.Justified.mono {F G : Set (Fact N (LogEntry N C))} {p : Packet N C} (hFG : F ⊆ G)
    (h : p.Justified m0 F) : p.Justified m0 G where
  msg := h.msg.mono hFG
  held t index needs check applied hmsg e he hle := by
    obtain ⟨A, hA, hget⟩ := h.held t index needs check applied hmsg e he hle
    exact ⟨A, hFG hA, hget⟩

/-- The replica follows the protocol from the synced state `a`. -/
def Replica.Follows (m0 : Finset N) (n : N) (a : State N (LogEntry N C)) (r : Replica N C S) : Prop :=
  ∃ a', LocalRun m0 n a a' ∧ Sim m0 a'.facts n (a'.node n) r.core.toVital ∧
    ∀ p ∈ r.outbox, p.Justified m0 a'.facts

variable {r : Replica N C S}

/-- An operation whose install keeps the log. -/
theorem Replica.Follows.perform (ha : Reachable m0 a) (h : r.Follows m0 n a) {op : Op N C}
    (hmeets : r.core.SnapshotsMeet keepLogRules op)
    (hin : ∀ s m, op.Reads s m → m.Shaped ∧ Justifies m0 a.facts s n m) :
    (r.perform op).Follows m0 n a ∧ r.core.toVital.Grows (r.perform op).core.toVital := by
  obtain ⟨a', hrun, hsim, hout⟩ := h
  obtain ⟨hgrows, a'', hrun', hsim', hsent⟩ := hsim.moves (fun _ _ _ hk => hk)
    (fun s m hm => ⟨(hin s m hm).1, (hin s m hm).2.mono hrun.facts_subset⟩) (hrun.reachable ha)
    (r.core.perform_moves op hmeets)
  have hreach := hrun'.reachable (hrun.reachable ha)
  refine ⟨⟨a'', hrun.trans hrun', hsim', fun p hp => ?_⟩, hgrows⟩
  rcases mem_append.mp hp with hp | hp
  · exact (hout p hp).mono hrun'.facts_subset
  obtain ⟨⟨dst, msg⟩, ho, rfl⟩ := mem_map.mp hp
  have hmsg : Justifies m0 a''.facts n dst msg := hsent _ ho
  have hid : (r.core.perform op).1.id = n := hsim'.id
  refine ⟨by rw [hid]; exact hmsg, ?_⟩
  intro t index needs check applied heq e he hle
  dsimp only at heq he ⊢
  subst heq
  obtain ⟨hget, hpos⟩ := hsim'.view.getElem?_of_mem he
  have hterm : t = (a''.node n).term := (r.core.perform_ack op ho).1.trans hsim'.term
  rcases hmsg rfl with hzero | ⟨A, hA, hlen⟩
  · omega
  · -- what was acknowledged in the term the core is in is part of its log
    have hkept : A <+: (a''.node n).log := by
      refine (hreach.inv.ack n).kept hA prefix_rfl ?_
      intro t' c' B' V' _ hlt hle'
      omega
    refine ⟨A, by rw [hid]; exact hA, ?_⟩
    rw [← hget, prefix_iff_eq_take.mp hkept, getElem?_take, if_pos (by omega)]

theorem Replica.Follows.markDurable (ha : Reachable m0 a) (h : r.Follows m0 n a) (index : Nat) :
    ({ r with core := r.core.markDurableThrough index } : Replica N C S).Follows m0 n a ∧
      r.core.toVital.Grows (r.core.markDurableThrough index).toVital := by
  obtain ⟨a', hrun, hsim, hout⟩ := h
  obtain ⟨hgrows, a'', hrun', hsim', -⟩ := hsim.markDurable (hrun.reachable ha) index
  exact ⟨⟨a'', hrun.trans hrun', hsim', fun p hp => (hout p hp).mono hrun'.facts_subset⟩, hgrows⟩

omit [StateMachine C S] in
theorem Replica.Follows.drainApply (h : r.Follows m0 n a) :
    ({ r with core := r.core.drainApply.1 } : Replica N C S).Follows m0 n a := by
  obtain ⟨a', hrun, hsim, hout⟩ := h
  exact ⟨a', hrun, hsim.settle _ _ _ _ _ _, hout⟩

omit [StateMachine C S] in
/-- Two cores that mirror the same persisted state have the same log and base. -/
theorem Mirrors.unique {state : PersistedState N C S} {c d : Vital N C S} (hc : Mirrors state c)
    (hd : Mirrors state d) (hshaped : Shaped c) (hshaped' : Shaped d) :
    d.log = c.log ∧ d.snapshotIndex = c.snapshotIndex ∧ d.snapshotTerm = c.snapshotTerm ∧
      d.snapshotConfig = c.snapshotConfig := by
  have hindex : d.snapshotIndex = c.snapshotIndex := hd.base_eq.symm.trans hc.base_eq
  refine ⟨hd.log.symm.trans hc.log, hindex, ?_, hd.config.symm.trans hc.config⟩
  have hbase := hd.base.symm.trans hc.base
  rw [hindex] at hbase
  split at hbase
  · rename_i hzero
    rw [(hshaped.bare hzero).1, (hshaped'.bare (hindex.trans hzero)).1]
  · rw [some.injEq, Prod.mk.injEq] at hbase
    exact hbase.2

variable (boot : Bootstrap N)

/-- A recovered core has applied its base and nothing else. -/
theorem Bootstrap.recover_counters (id : N) (wal : List (WalRecord N C S)) (now : Nanos) (entropy : Nat) :
    (boot.recover id wal now entropy).commitIndex = (boot.recover id wal now entropy).snapshotIndex ∧
      (boot.recover id wal now entropy).lastApplied = (boot.recover id wal now entropy).snapshotIndex ∧
      (boot.recover id wal now entropy).panicked = false ∧
        (boot.recover id wal now entropy).incomingSnapshot = none ∧
      (boot.recover id wal now entropy).pendingApply = [] := by
  change (RaftCore.loaded id boot.allNodes (PersistedState.replay wal) now entropy).commitIndex =
      (RaftCore.loaded id boot.allNodes (PersistedState.replay wal) now entropy).snapshotIndex ∧
    (RaftCore.loaded id boot.allNodes (PersistedState.replay wal) now entropy).lastApplied =
      (RaftCore.loaded id boot.allNodes (PersistedState.replay wal) now entropy).snapshotIndex ∧
    (RaftCore.loaded id boot.allNodes (PersistedState.replay wal) now entropy).panicked = false ∧
    (RaftCore.loaded id boot.allNodes (PersistedState.replay wal) now entropy).incomingSnapshot = none ∧
    (RaftCore.loaded id boot.allNodes (PersistedState.replay wal) now entropy).pendingApply = []
  unfold RaftCore.loaded
  cases (PersistedState.replay wal).snapshot <;> exact ⟨rfl, rfl, rfl, rfl, rfl⟩

variable {boot}

/-- A persist round makes the local steps of the replica part of the synced state. -/
theorem Replica.Follows.persist (hkept : r.Kept boot n) (rewrite : Bool)
    (hrewrite : r.rewriteOwed = true → rewrite = true) {m0 : Finset N}
    (hsim : Sim m0 a.facts n (a.node n) r.core.toVital) : (r.persist rewrite).Follows m0 n a ∧ ∀ now entropy,
      Saved m0 (a.node n) (boot.recover n (r.persist rewrite).wal now entropy).toVital := by
  obtain ⟨hard, dirty, owed, hcore, -⟩ := r.persist_core rewrite
  have hsim' : Sim m0 a.facts n (a.node n) (r.persist rewrite).core.toVital := by
    rw [hcore]
    exact hsim.settle _ _ _ _ _ _
  have hkept' := hkept.persist rewrite hrewrite
  have hsynced := hkept.persist_synced rewrite hrewrite
  have hout : (r.persist rewrite).outbox = [] := by
    unfold Replica.persist
    dsimp only
    split <;> rfl
  refine ⟨⟨a, .refl a, hsim', by rw [hout]; simp⟩, fun now entropy => ?_⟩
  obtain ⟨hlog, hindex, hterm, hconfig⟩ := hsynced.mirrors.unique
    (boot.recover_mirrors n (r.persist rewrite).wal now entropy hkept'.stored) hsim'.shaped
    (boot.recover_shaped n (r.persist rewrite).wal now entropy hkept'.stored)
  obtain ⟨hcurrent, hvote⟩ := boot.recover_hard n (r.persist rewrite).wal now entropy
  have hinitial : (boot.recover n (r.persist rewrite).wal now entropy).initialConfig =
      (r.persist rewrite).core.initialConfig := by
    have hrec := congrArg (·.2.1) (boot.recover_identity n (r.persist rewrite).wal now entropy)
    exact hrec.trans (congrArg (·.2.1) hkept'.identity).symm
  refine ⟨hsim'.view.congr hlog hindex hterm hconfig hinitial, ?_, ?_, ?_⟩
  · rw [hcurrent, hsynced.term, hsim'.term]
  · rw [hvote, hsynced.votedFor, hsim'.vote]
  · rw [hindex, ← hsim'.commit]
    exact hsim'.based.trans hsim'.applied

/-- A crash takes the replica back to the synced state. -/
theorem Replica.Follows.crash (hkept : r.Kept boot n) (now : Nanos) (entropy : Nat)
    (hsaved : Saved m0 (a.node n) (boot.recover n r.wal now entropy).toVital) :
    (r.crash boot now entropy).Follows m0 n a := by
  have hid : r.core.id = n := congrArg Prod.fst hkept.identity
  have hcore : (r.crash boot now entropy).core = boot.recover n r.wal now entropy := by
    rw [← hid]
    rfl
  obtain ⟨hcommit, happlied, hsane, hincoming, -⟩ := boot.recover_counters n r.wal now entropy
  have hrole := boot.recover_role n r.wal now entropy
  have hidle : (boot.recover n r.wal now entropy).role ≠ .leader ∧
    (boot.recover n r.wal now entropy).role ≠ .candidate := by
    rw [hrole]
    simp
  refine ⟨_, .single (.restart _ hsaved.base), ?_, fun p hp => by cases hp⟩
  rw [State.update_node_self, hcore]
  exact
    { hsaved with
      shaped := boot.recover_shaped n r.wal now entropy hkept.stored
      id := congrArg Prod.fst (boot.recover_identity n r.wal now entropy)
      leading := fun hl => absurd hl hidle.1
      standing := fun hc => absurd hc hidle.2
      commit := hcommit, based := happlied.ge, applied := (happlied.trans hcommit.symm).le, sane := hsane
      member := fun hl => absurd hl hidle.1
      first := fun hl => absurd hl hidle.1
      progress := fun hl => absurd hl hidle.1
      incoming := fun inc hinc => by rw [hincoming] at hinc; cases hinc }

variable [DecidableEq C]

/-- The install that a message completes keeps the log of its receiver. -/
def RaftCore.installKeepsLog (c : RaftCore N C S) (msg : RaftMsg N C) : Bool :=
  match msg with
  | .installSnapshot _ _ lastIndex _ _ _ _ _ _ _ => (c.installs msg).all fun inc =>
    decide (inc.lastIndex = lastIndex) &&
      !(decide (c.termAt inc.lastIndex = inc.lastTerm) && decide (inc.lastIndex < c.lastLogIndex))
  | _ => true

omit [DecidableEq C] in
theorem RaftCore.installKeepsLog_meets {c : RaftCore N C S} {msg : RaftMsg N C}
    (h : c.installKeepsLog msg = true) : c.InstallMeets keepLogRules msg := by
  cases msg with
  | installSnapshot =>
    intro inc hinc
    unfold RaftCore.installKeepsLog at h
    dsimp only at h
    rw [hinc, all_some, Bool.and_eq_true, Bool.not_eq_true', Bool.and_eq_false_iff,
      decide_eq_true_eq, decide_eq_false_iff_not, decide_eq_false_iff_not] at h
    exact ⟨h.1, fun hpart => h.2.elim (fun hne => hne hpart.1) fun hne => hne hpart.2⟩
  | _ => trivial

/-- Every install that a delivery completes keeps the log of its receiver. -/
def Group.KeepsLog (g : Group N C S) (ev : Event N C) : Prop :=
  (g.delivery ev).all (fun p => (g.replica p.dst).core.installKeepsLog p.msg) = true

instance Group.decidableKeepsLog (g : Group N C S) (ev : Event N C) : Decidable (g.KeepsLog ev) := by
  unfold Group.KeepsLog
  infer_instance

/-- The event takes the replica's core away. -/
def Event.Crashes (n : N) : Event N C → Prop
  | .crash node _ _ => node = n
  | _ => False

/-- The group follows the protocol, whose synced state is `a`. -/
structure Group.Follows (boot : Bootstrap N) (a : State N (LogEntry N C)) (g : Group N C S) : Prop where
  kept : g.Kept boot
  reachable : Reachable boot.allNodes.toFinset a
  net : ∀ p ∈ g.net, p.Justified boot.allNodes.toFinset a.facts
  replicas : ∀ n, (g.replica n).Follows boot.allNodes.toFinset n a
  saved : ∀ n now entropy, Saved boot.allNodes.toFinset (a.node n)
    (boot.recover n (g.replica n).wal now entropy).toVital

omit [StateMachine C S] [DecidableEq C] in
/-- The synced state after the sync of one replica: the others stay as far ahead of it. -/
theorem Replica.Follows.lift {b : State N (LogEntry N C)} {v : N} {r : Replica N C S}
    (h : r.Follows m0 v a) (hrun : LocalRun m0 n a b) (hv : v ≠ n) : r.Follows m0 v b := by
  obtain ⟨a', hrun', hsim, hout⟩ := h
  obtain ⟨b', hrunb, hnode, hfacts⟩ := hrun'.replay (hrun.node_of_ne hv) hrun.facts_subset
  have hsub : a'.facts ⊆ b'.facts := by
    rw [hfacts]
    exact Set.subset_union_right
  exact ⟨b', hrunb, hnode ▸ hsim.mono hsub, fun p hp => (hout p hp).mono hsub⟩

/-- The synced state goes on to one that the replica follows, that justifies what it sends and that
its WAL saves. -/
def Replica.Joins (boot : Bootstrap N) (a : State N (LogEntry N C)) (node : N) (r : Replica N C S)
    (sent : List (Packet N C)) : Prop :=
  ∃ b, LocalRun boot.allNodes.toFinset node a b ∧ r.Follows boot.allNodes.toFinset node b ∧
    (∀ p ∈ sent, p.Justified boot.allNodes.toFinset b.facts) ∧ ∀ now entropy,
      Saved boot.allNodes.toFinset (b.node node) (boot.recover node r.wal now entropy).toVital

omit [DecidableEq C] in
/-- The turn of one replica: a sync makes its local steps and its messages common. -/
theorem Group.Follows.turn {g : Group N C S} {ev : Event N C} (h : g.Follows boot a)
    (hkeeps : g.KeepsLog ev) {node : N} {r : Replica N C S} {sent : List (Packet N C)}
    (hturn : g.Turn boot ev node r sent) : r.Joins boot a node sent ∧
      (¬ ev.Crashes node → (g.replica node).core.toVital.Grows r.core.toVital) := by
  have hnode := h.replicas node
  have hquiet {r : Replica N C S} (hr : r.Follows boot.allNodes.toFinset node a)
      (hwal : r.wal = (g.replica node).wal) : r.Joins boot a node [] :=
    ⟨a, .refl a, hr, fun _ hp => (not_mem_nil hp).elim, hwal ▸ h.saved node⟩
  cases hturn with
  | act hlocal =>
    obtain ⟨hfollows, hgrows⟩ := hnode.perform h.reachable
      (RaftCore.snapshotsMeet_of_local _ hlocal trivial) fun s m hreads => (hlocal s m hreads).elim
    exact ⟨hquiet hfollows rfl, fun _ => hgrows⟩
  | @deliver _ now entropy p hp =>
    have hmem := mem_of_getElem? hp
    simp only [Group.KeepsLog, Group.delivery, hp, all_some] at hkeeps
    have hmeets : (g.replica p.dst).core.SnapshotsMeet keepLogRules
        (.handle p.src p.msg now entropy) := RaftCore.installKeepsLog_meets hkeeps
    obtain ⟨hfollows, hgrows⟩ := hnode.perform h.reachable hmeets fun s m hreads => by
        obtain ⟨_, _, heq⟩ := hreads
        cases heq
        exact ⟨h.kept.net _ hmem, (h.net _ hmem).msg⟩
    exact ⟨hquiet hfollows rfl, fun _ => hgrows⟩
  | drainApply => exact ⟨hquiet hnode.drainApply rfl, fun _ => ⟨le_rfl, le_rfl, le_rfl, le_rfl⟩⟩
  | sync hallowed =>
    obtain ⟨b, hrun, hsim, hout⟩ := hnode
    obtain ⟨hfollows, hsaved⟩ := Replica.Follows.persist (h.kept.replicas node) _ hallowed hsim
    obtain ⟨_, _, _, hcore, -⟩ := (g.replica node).persist_core _
    rw [hcore]
    exact ⟨⟨b, hrun, hfollows, hout, hsaved⟩, fun _ => ⟨le_rfl, le_rfl, le_rfl, le_rfl⟩⟩
  | markDurable =>
    obtain ⟨hfollows, hgrows⟩ := hnode.markDurable h.reachable _
    exact ⟨hquiet hfollows rfl, fun _ => hgrows⟩
  | crash now entropy =>
    have hcrash := Replica.Follows.crash (h.kept.replicas node) now entropy (h.saved node now entropy)
    exact ⟨hquiet hcrash rfl, fun hn => absurd rfl hn⟩

/-- Every event whose install keeps the log keeps the group in step with the protocol, and no
counter of a core goes back. -/
theorem Group.Follows.step {g g' : Group N C S} {ev : Event N C} (h : g.Follows boot a) (hkeeps : g.KeepsLog ev)
    (hstep : g.step boot ev = some g') : (∃ b, a.facts ⊆ b.facts ∧ g'.Follows boot b) ∧
      ∀ n, ¬ ev.Crashes n → (g.replica n).core.toVital.Grows (g'.replica n).core.toVital := by
  refine ⟨?_, Group.step_replicas hstep (fun n _ => .refl _) fun _ _ _ ht => (h.turn hkeeps ht).2⟩
  obtain ⟨node, r, sent, hturn, hreplica, hnet, -⟩ := Group.step_turn hstep
  obtain ⟨⟨b, hrun, hfollows, hsent, hsaved⟩, -⟩ := h.turn hkeeps hturn
  refine ⟨b, hrun.facts_subset, h.kept.step hstep, hrun.reachable h.reachable, fun p hp => ?_,
    fun v => ?_, fun v now entropy => ?_⟩
  · rw [hnet] at hp
    exact forall_mem_append.mpr ⟨fun p hp => (h.net p hp).mono hrun.facts_subset, hsent⟩ p hp
  · rw [hreplica, Function.update_apply]
    split
    · rename_i hv
      rw [hv]
      exact hfollows
    · rename_i hv
      exact (h.replicas v).lift hrun hv
  · rw [hreplica, Function.update_apply]
    split
    · rename_i hv
      rw [hv]
      exact hsaved now entropy
    · rename_i hv
      rw [hrun.node_of_ne hv]
      exact h.saved v now entropy

omit [DecidableEq C] in
theorem Group.Follows.start (boot : Bootstrap N) (clock : N → Nanos × Nat) :
    (Group.start boot clock : Group N C S).Follows boot State.initial where
  kept := .start boot clock
  reachable := .initial
  net p hp := by cases hp
  replicas n := by
    refine ⟨State.initial, .refl _, ?_, fun p hp => by cases hp⟩
    exact
      { shaped := ((Group.Kept.start boot clock).replicas n).shaped
        view := ⟨Contiguous.nil 0, le_rfl, rfl, rfl, rfl⟩, id := rfl, term := rfl, vote := rfl
        leading := fun hl => by cases hl
        standing := fun hc => by cases hc
        commit := rfl, based := le_rfl, applied := le_rfl, sane := rfl
        member := fun hl => by cases hl
        first := fun hl => by cases hl
        progress := fun hl => by cases hl
        incoming := fun inc hinc => by cases hinc }
  saved n now entropy :=
    ⟨⟨Contiguous.nil 0, le_rfl, rfl, rfl, rfl⟩, rfl, rfl, le_rfl⟩

/-- Every run whose installs keep the log is in step with the protocol. -/
theorem Group.Follows.run {g g' : Group N C S} {evs : List (Event N C)}
    (h : g.Follows boot a) (hmeets : g.RunMeets boot Group.KeepsLog evs)
    (hrun : g.run boot evs = some g') : ∃ b, a.facts ⊆ b.facts ∧ g'.Follows boot b := by
  refine Group.run_preserves Group.KeepsLog (P := fun g => ∃ b, a.facts ⊆ b.facts ∧ g.Follows boot b)
    (fun g ev g' hP hkeeps hstep => ?_) ⟨a, subset_rfl, h⟩ hmeets hrun
  obtain ⟨b, hab, hb⟩ := hP
  obtain ⟨⟨b', hbb, hb'⟩, -⟩ := hb.step hkeeps hstep
  exact ⟨b', hab.trans hbb, hb'⟩

end AnimusDb.Raft
