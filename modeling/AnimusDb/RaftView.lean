import AnimusDb.ConsensusBurst
import AnimusDb.RaftShape

/-! The whole log behind a core. A core keeps the part of its log above its snapshot base; the
whole log, from index 1 on, is what the protocol speaks about. A view relates the two, and each
operation on the kept part is an operation on the whole log. -/

open QuorumSets LogConsensus List Option

namespace AnimusDb.Raft

variable {N C S : Type} [LinearOrder N]

instance : Entry N (LogEntry N C) where
  term := LogEntry.term
  members := LogEntry.config

/-- The core `c` keeps the part of the log `X` above its base, and the base stands for the rest. -/
structure View (m0 : Finset N) (X : List (LogEntry N C)) (c : Vital N C S) : Prop where
  indexed : Contiguous 0 X
  base : c.snapshotIndex ≤ X.length
  log : c.log = X.drop c.snapshotIndex
  baseTerm : c.snapshotTerm = lastTerm (X.take c.snapshotIndex)
  baseMembers : c.snapshotConfig.getD c.initialConfig = memberSet m0 (X.take c.snapshotIndex)

variable {k : Nat} {e : LogEntry N C} {m0 : Finset N} {X : List (LogEntry N C)} {c : Vital N C S}

variable {d : Vital N C S}

theorem View.congr (h : View m0 X c) (hlog : d.log = c.log) (hindex : d.snapshotIndex = c.snapshotIndex)
    (hterm : d.snapshotTerm = c.snapshotTerm) (hconfig : d.snapshotConfig = c.snapshotConfig)
    (hinitial : d.initialConfig = c.initialConfig) : View m0 X d where
  indexed := h.indexed
  base := by rw [hindex]; exact h.base
  log := by rw [hindex, hlog]; exact h.log
  baseTerm := by rw [hindex, hterm]; exact h.baseTerm
  baseMembers := by rw [hindex, hconfig, hinitial]; exact h.baseMembers

theorem View.contiguous (h : View m0 X c) : Contiguous c.snapshotIndex c.log := by
  have := h.indexed.drop c.snapshotIndex
  rw [Nat.zero_add] at this
  rw [h.log]
  exact this

theorem View.length_log (h : View m0 X c) : c.snapshotIndex + c.log.length = X.length := by
  have := h.base
  rw [h.log, length_drop]
  omega

theorem View.lastLogIndex (h : View m0 X c) : c.lastLogIndex = X.length := by
  rw [Ledger.lastLogIndex_eq h.contiguous, h.length_log]

theorem View.getElem? (h : View m0 X c) (hk : c.snapshotIndex < k) :
    c.log[k - c.snapshotIndex - 1]? = X[k - 1]? := by
  rw [h.log, getElem?_drop]
  congr 1
  omega

theorem take_succ_of_getElem? {E : Type} {X : List E} {e : E} (h : X[k]? = some e) :
    X.take (k + 1) = X.take k ++ [e] := by
  rw [take_add_one, h, toList_some]

theorem take_eq_of_prefix_take {E : Type} {X L : List E} {j : Nat} (h : L.take k <+: X)
    (hk : k ≤ L.length) (hjk : j ≤ k) : X.take j = L.take j := by
  have htake := prefix_iff_eq_take.mp h
  rw [length_take_of_le hk] at htake
  rw [← min_eq_left hjk, ← take_take, ← take_take, htake]

section

variable (h : View m0 X c)

include h

theorem View.termAt (hbase : c.snapshotIndex ≤ k) (hk : k ≤ X.length) : c.termAt k = lastTerm (X.take k) := by
  unfold Ledger.termAt
  split
  · rename_i hzero
    rw [hzero]
    rfl
  · split
    · rename_i heq
      rw [heq]
      exact h.baseTerm
    · rw [if_neg (not_lt.mpr hbase), h.getElem? (by omega)]
      obtain ⟨j, rfl⟩ : ∃ j, k = j + 1 := ⟨k - 1, by omega⟩
      have hj : j < X.length := hk
      rw [Nat.add_sub_cancel, getElem?_eq_getElem hj, take_succ_of_getElem? (getElem?_eq_getElem hj), lastTerm_snoc]
      rfl

theorem View.termAt_beyond (hk : X.length < k) : c.termAt k = 0 := by
  have hbase := h.base
  unfold Ledger.termAt
  rw [if_neg (by omega), if_neg (by omega), if_neg (by omega), h.getElem? (by omega),
    getElem?_eq_none (by omega)]

theorem View.lastLogTerm : c.lastLogTerm = lastTerm X := by
  unfold Ledger.lastLogTerm
  rcases eq_nil_or_concat c.log with hnil | ⟨init, e, hlog⟩
  · have hbase : c.snapshotIndex = X.length := by
      have := h.length_log
      rw [hnil] at this
      exact this
    rw [hnil]
    change c.snapshotTerm = _
    rw [h.baseTerm, hbase, take_length]
  · have hX : X = (X.take c.snapshotIndex ++ init) ++ [e] := by
      rw [append_assoc, ← concat_eq_append, ← hlog, h.log, take_append_drop]
    rw [hlog, concat_eq_append, getLast?_concat]
    change e.term = _
    rw [hX, lastTerm_snoc]
    rfl

theorem View.config (hshaped : Shaped c) : c.config = memberSet m0 X := by
  rw [hshaped.config, h.baseMembers, h.log]
  have := latest_append (fun e : LogEntry N C => e.config) m0 (X.take c.snapshotIndex) (X.drop c.snapshotIndex)
  rw [take_append_drop] at this
  exact this.symm

/-- The entries of the whole log at or below the base, and those that the core keeps. -/
theorem View.mem_log (he : X[k]? = some e) (hk : c.snapshotIndex ≤ k) : e ∈ c.log := by
  rw [h.log]
  refine mem_of_getElem? (i := k - c.snapshotIndex) ?_
  rw [getElem?_drop, Nat.add_sub_cancel' hk]
  exact he

theorem View.getElem?_of_mem (he : e ∈ c.log) : X[e.index - 1]? = some e ∧ c.snapshotIndex < e.index := by
  obtain ⟨k, hk⟩ := List.getElem?_of_mem he
  have hindex := h.contiguous k e hk
  rw [h.log, List.getElem?_drop] at hk
  have : e.index - 1 = c.snapshotIndex + k := by omega
  rw [this]
  exact ⟨hk, by omega⟩

end

theorem View.pushEntry (h : View m0 X c) (he : e.index = X.length + 1) :
    View m0 (X ++ [e]) (c.pushEntry e) := by
  rw [Vital.pushEntry_eq]
  have hbase := h.base
  have htake : (X ++ [e]).take c.snapshotIndex = X.take c.snapshotIndex :=
    take_append_of_le_length hbase
  refine ⟨h.indexed.snoc (by omega), ?_, ?_, ?_, ?_⟩
  · rw [length_append]
    exact hbase.trans (Nat.le_add_right _ _)
  · change c.log ++ [e] = _
    rw [drop_append_of_le_length hbase, h.log]
  · change c.snapshotTerm = _
    rw [htake, h.baseTerm]
  · change c.snapshotConfig.getD c.initialConfig = _
    rw [htake, h.baseMembers]

theorem View.logTruncate (h : View m0 X c) (hbase : c.snapshotIndex ≤ k)
    (hk : k ≤ X.length) : View m0 (X.take k) (c.logTruncate (k - c.snapshotIndex)) := by
  have htake : (X.take k).take c.snapshotIndex = X.take c.snapshotIndex := by
    rw [take_take, min_eq_left hbase]
  refine ⟨h.indexed.take k, ?_, ?_, ?_, ?_⟩
  · rw [length_take_of_le hk]
    exact hbase
  · change c.log.take _ = _
    rw [h.log, ← drop_take]
    rfl
  · change c.snapshotTerm = lastTerm ((X.take k).take c.snapshotIndex)
    rw [htake, h.baseTerm]
  · change c.snapshotConfig.getD c.initialConfig = memberSet m0 ((X.take k).take c.snapshotIndex)
    rw [htake, h.baseMembers]

theorem View.compactTo [StateMachine C S] (h : View m0 X c) (hbase : c.snapshotIndex < k)
    (hk : k ≤ X.length) : View m0 X (c.compactTo k) := by
  have hfilter := h.contiguous.filter_lt k
  refine ⟨h.indexed, hk, ?_, h.termAt hbase.le hk, ?_⟩
  · change c.log.filter _ = _
    rw [hfilter, h.log, drop_drop, Nat.add_sub_cancel' hbase.le]
    rfl
  · change c.configAt k = memberSet m0 (X.take k)
    rw [Ledger.configAt_eq h.contiguous, h.baseMembers, h.log]
    have hsplit : X.take k = X.take c.snapshotIndex ++
      (X.drop c.snapshotIndex).take (k - c.snapshotIndex) := by
      rw [← drop_take, ← take_append_drop c.snapshotIndex (X.take k), take_take,
        min_eq_left hbase.le, drop_append_of_le_length (by simp; omega)]
      simp
    rw [hsplit]
    exact (latest_append _ m0 _ _).symm

section Apply

variable [StateMachine C S]

/-- The applied triples that a core gained: each is an entry of the log between `low` and `high`. -/
def Gains (X : List (LogEntry N C)) (low high : Nat) (before after : List (Nat × Nat × C)) : Prop :=
  ∀ triple ∈ after, triple ∈ before ∨ ∃ k e, X[k]? = some e ∧ low ≤ k ∧ k < high ∧
    triple = (k + 1, e.term, e.command)

theorem View.applyOne (h : View m0 X c) (hbase : c.snapshotIndex ≤ c.lastApplied)
    (hreach : c.lastApplied < X.length) :
    c.applyOne.lastApplied = c.lastApplied + 1 ∧ c.applyOne.panicked = c.panicked ∧
      View m0 X c.applyOne ∧ c.applyOne.snapshotIndex = c.snapshotIndex ∧
      Gains X c.lastApplied (c.lastApplied + 1) c.pendingApply c.applyOne.pendingApply := by
  have hget : c.log[c.lastApplied + 1 - c.snapshotIndex - 1]? = some X[c.lastApplied] := by
    rw [h.getElem? (by omega), Nat.add_sub_cancel, getElem?_eq_getElem hreach]
  unfold Vital.applyOne
  dsimp only
  rw [if_neg (by omega), hget]
  dsimp only
  split
  · refine ⟨rfl, rfl, { h with }, rfl, fun triple ht => ?_⟩
    rcases mem_append.mp ht with ht | ht
    · exact .inl ht
    · exact .inr ⟨c.lastApplied, _, getElem?_eq_getElem hreach, le_rfl, Nat.lt_succ_self _, mem_singleton.mp ht⟩
  · exact ⟨rfl, rfl, { h with }, rfl, fun triple ht => .inl ht⟩

theorem View.applyTimes (h : View m0 X c) (steps : Nat)
    (hbase : c.snapshotIndex ≤ c.lastApplied) (hreach : c.lastApplied + steps ≤ X.length) :
    (Vital.applyTimes steps c).lastApplied = c.lastApplied + steps ∧
      (Vital.applyTimes steps c).panicked = c.panicked ∧
      Gains X c.lastApplied (c.lastApplied + steps) c.pendingApply (Vital.applyTimes steps c).pendingApply := by
  induction steps generalizing c with
  | zero => exact ⟨rfl, rfl, fun triple ht => .inl ht⟩
  | succ steps ih =>
    obtain ⟨happlied, hsane, hview, hindex, hgain⟩ := h.applyOne hbase (by omega)
    obtain ⟨happlied', hsane', hgain'⟩ := ih hview (by omega) (by omega)
    rw [Vital.applyTimes]
    refine ⟨by omega, hsane'.trans hsane, fun triple ht => ?_⟩
    rcases hgain' triple ht with ht | ⟨k, e, he, hlow, hhigh, heq⟩
    · rcases hgain triple ht with ht | ⟨k, e, he, hlow, hhigh, heq⟩
      · exact .inl ht
      · exact .inr ⟨k, e, he, by omega, by omega, heq⟩
    · exact .inr ⟨k, e, he, by omega, by omega, heq⟩

/-- `apply` up to a frontier within the log does not panic. -/
theorem View.apply (h : View m0 X c) (hbase : c.snapshotIndex ≤ c.lastApplied)
    (hreach : c.applyFrontier ≤ X.length) :
    c.apply.lastApplied = max c.lastApplied c.applyFrontier ∧ c.apply.panicked = c.panicked ∧
      Gains X c.lastApplied c.applyFrontier c.pendingApply c.apply.pendingApply := by
  rcases Nat.le_total c.applyFrontier c.lastApplied with hle | hle
  · rw [Vital.apply, Nat.sub_eq_zero_of_le hle]
    exact ⟨(max_eq_left hle).symm, rfl, fun triple ht => .inl ht⟩
  · have hsteps : c.lastApplied + (c.applyFrontier - c.lastApplied) = c.applyFrontier := by omega
    obtain ⟨happlied, hsane, hgain⟩ :=
      h.applyTimes (c.applyFrontier - c.lastApplied) hbase (by omega)
    rw [hsteps] at happlied hgain
    exact ⟨happlied.trans (max_eq_right hle).symm, hsane, hgain⟩

end Apply

variable {X' : List (LogEntry N C)}

omit [LinearOrder N] in
theorem Contiguous.index_eq {X : List (LogEntry N C)} (h : Contiguous 0 X) (he : X[k]? = some e) :
    e.index = k + 1 := by
  have := h k e he
  omega

variable {F : Set (Fact N (LogEntry N C))} {L : List (LogEntry N C)}

/-- The log after the part of a leader's log up to `k` was merged into it. -/
def Merged (X L : List (LogEntry N C)) (k : Nat) (X' : List (LogEntry N C)) : Prop :=
  (L.take k <+: X ∧ X' = X) ∨ (¬ L.take k <+: X ∧ X' = L.take k)

omit [LinearOrder N] in
theorem Merged.trans {X'' : List (LogEntry N C)} {j : Nat} (hjk : j ≤ k)
    (h : Merged X L j X') (h' : Merged X' L k X'') : Merged X L k X'' := by
  have hle : L.take j <+: L.take k := take_prefix_take_left hjk
  rcases h with ⟨_, rfl⟩ | ⟨hnot, rfl⟩
  · exact h'
  · refine .inr ⟨fun hk => hnot (hle.trans hk), ?_⟩
    rcases h' with ⟨hk, rfl⟩ | ⟨_, rfl⟩
    · exact hle.eq_of_length (Nat.le_antisymm hle.length_le hk.length_le)
    · rfl

omit [LinearOrder N] in
theorem Merged.good (h : Merged X L k X') (hX : Good F X) (hL : Good F L) : Good F X' := by
  rcases h with ⟨_, rfl⟩ | ⟨_, rfl⟩
  · exact hX
  · exact hL.restrict ( take_prefix _ _)

omit [LinearOrder N] in
theorem Merged.prefix_merged (h : Merged X L k X') : L.take k <+: X' := by
  rcases h with ⟨hk, rfl⟩ | ⟨_, rfl⟩
  · exact hk
  · exact prefix_rfl

/-- One entry of a leader's log at the position after a common part. -/
theorem View.appendStep {idx : Nat} (hs : Sound m0 F)
    (hX : Good F X) (hL : Good F L) (h : View m0 X c) (hindexed : Contiguous 0 L)
    (hbase : c.snapshotIndex ≤ idx) (hcommon : L.take idx <+: X) (he : L[idx]? = some e) :
    (Vital.appendStep (c, idx) e).2 = idx + 1 ∧ (Vital.appendStep (c, idx) e).1.panicked = c.panicked ∧
      (Vital.appendStep (c, idx) e).1.snapshotIndex = c.snapshotIndex ∧
      ∃ X', Merged X L (idx + 1) X' ∧ View m0 X' (Vital.appendStep (c, idx) e).1 := by
  have hsnoc : L.take (idx + 1) = L.take idx ++ [e] := take_succ_of_getElem? he
  have hidx : idx < L.length := (List.getElem?_eq_some_iff.mp he).1
  have hlen : (L.take idx).length = idx := length_take_of_le hidx.le
  have htake : X.take idx = L.take idx := by
    have := prefix_iff_eq_take.mp hcommon
    rw [hlen] at this
    exact this.symm
  have hindex : e.index = idx + 1 := hindexed.index_eq he
  have hterm : lastTerm (L.take (idx + 1)) = e.term := by
    rw [hsnoc, lastTerm_snoc]
    rfl
  simp only [Vital.appendStep, h.lastLogIndex]
  split
  · rename_i hin
    rw [h.termAt (by omega) hin]
    split
    · -- the terms differ: the log is cut there and continues with the leader's entry
      rename_i hdiffer
      rw [if_neg (by omega)]
      have hcut : View m0 (X.take idx) (c.logTruncate (idx - c.snapshotIndex)) :=
        h.logTruncate hbase (by omega)
      rw [show idx + 1 - c.snapshotIndex - 1 = idx - c.snapshotIndex by omega]
      refine ⟨rfl, by rw [Vital.pushEntry_eq]; rfl, by rw [Vital.pushEntry_eq]; rfl,
        L.take (idx + 1), .inr ⟨fun hpre => hdiffer ?_, rfl⟩, ?_⟩
      · rw [← hterm, prefix_iff_eq_take.mp hpre, length_take_of_le hidx]
      · rw [hsnoc, ← htake]
        exact hcut.pushEntry (by rw [hindex, htake, hlen])
    · rename_i hsame
      have heq : X.take (idx + 1) = L.take (idx + 1) :=
        hs.take_eq_of_lastTerm_eq hX hL hin hidx (by rw [not_not.mp hsame, hterm])
      exact ⟨rfl, rfl, rfl, X, .inl ⟨heq ▸ take_prefix _ _, rfl⟩, h⟩
  · rename_i hout
    have hall : X = L.take idx := by
      rw [← htake, take_of_length_le (by omega)]
    refine ⟨rfl, by rw [Vital.pushEntry_eq], by rw [Vital.pushEntry_eq], L.take (idx + 1), .inr ⟨fun hpre =>
      hout ?_, rfl⟩, ?_⟩
    · have := hpre.length_le
      rwa [length_take_of_le hidx] at this
    · rw [hsnoc, ← hall]
      exact h.pushEntry (by rw [hindex, hall, hlen])

/-- A batch of a leader's log after a common part. -/
theorem View.foldl_appendStep {idx : Nat} {entries : List (LogEntry N C)}
    (hs : Sound m0 F) (hX : Good F X) (hL : Good F L) (h : View m0 X c) (hindexed : Contiguous 0 L)
    (hbase : c.snapshotIndex ≤ idx) (hcommon : L.take idx <+: X) (hentries : entries <+: L.drop idx) :
    (entries.foldl Vital.appendStep (c, idx)).2 = idx + entries.length ∧
      (entries.foldl Vital.appendStep (c, idx)).1.panicked = c.panicked ∧
      ∃ X', Merged X L (idx + entries.length) X' ∧
        View m0 X' (entries.foldl Vital.appendStep (c, idx)).1 := by
  induction entries generalizing c idx X with
  | nil => exact ⟨rfl, rfl, X, .inl ⟨hcommon, rfl⟩, h⟩
  | cons e rest ih =>
    obtain ⟨more, hmore⟩ := hentries
    have he : L[idx]? = some e := by
      have := congrArg (·[0]?) hmore
      simp only [cons_append, getElem?_cons_zero, getElem?_drop] at this
      exact this.symm
    have hrest : rest <+: L.drop (idx + 1) := by
      refine ⟨more, ?_⟩
      rw [← drop_drop, ← hmore]
      rfl
    obtain ⟨hnext, hsane, hindex, X', hmerged, hview⟩ :=
      h.appendStep hs hX hL hindexed hbase hcommon he
    rw [foldl_cons]
    generalize Vital.appendStep (c, idx) e = r at hnext hsane hindex hview ⊢
    obtain ⟨d, j⟩ := r
    dsimp only at hnext hsane hindex hview
    subst hnext
    obtain ⟨hnext', hsane', X'', hmerged', hview'⟩ :=
      ih (hmerged.good hX hL) hview (by omega) hmerged.prefix_merged hrest
    have hlen : idx + 1 + rest.length = idx + (e :: rest).length := by
      rw [length_cons]
      omega
    rw [hlen] at hnext' hmerged'
    refine ⟨hnext', hsane'.trans hsane, X'', hmerged.trans ?_ hmerged', hview'⟩
    rw [length_cons]
    omega

end AnimusDb.Raft
