import AnimusDb.LsmView

/-! Rows of an engine that are only ever merged: what a key's newest record is after a run of merges. -/

open List Option

namespace AnimusDb.Lsm.MemoryEngine

variable (m : MemoryEngine)

/-- The records of a key, oldest first. -/
def history (key : Key) : List Record := m.data.records.filter fun r => r.key = key

def newest (key : Key) : Option Record := (m.history key).getLast?

def read (key : Key) : Option VersionedValue := (m.newest key).bind live

def mergeAll (ops : List MergeOp) : MemoryEngine := ops.foldl (fun m op => (m.mergeSlot op).2) m

variable {m} {key : Key} {op : MergeOp} {ops : List MergeOp} {r : Record}

theorem mem_history : r ∈ m.history key ↔ r ∈ m.data.held ∧ r.key = key := by
  simp [history]

theorem ordered_history (m : MemoryEngine) (key : Key) :
    OrderedList.Ordered Mvcc.Record.slot (m.history key) :=
  m.data.ordered.filter _

theorem latestVersionOf_eq (m : MemoryEngine) (key : Key) :
    m.latestVersionOf key = (m.newest key).map (·.version) :=
  rfl

/-- Versions are 64-bit, so reading at the greatest of them reads the newest record. -/
theorem get_eq_read (hbound : Bounded m.data.held) (key : Key) : m.get key = m.read key := by
  rw [get, readAt, read, newest, history, newestAt_versionMax hbound]

theorem newest_eq_some (h : m.newest key = some r) :
    r ∈ m.data.held ∧ r.key = key ∧ ∀ s ∈ m.data.held, s.key = key → s.version ≤ r.version := by
  obtain ⟨before, hsplit⟩ := getLast?_eq_some_iff.mp h
  have hordered := m.ordered_history key
  have hmem (s : Record) : s ∈ before ++ [r] ↔ s ∈ m.data.held ∧ s.key = key := by
    rw [← hsplit, mem_history]
  have hr := (hmem r).mp (by simp)
  refine ⟨hr.1, hr.2, fun s hs hkey => ?_⟩
  rcases mem_append.mp ((hmem s).mpr ⟨hs, hkey⟩) with hs | hs
  · rw [hsplit] at hordered
    have hlt := (pairwise_append.mp hordered).2.2 s hs r (mem_singleton_self r)
    exact (Mvcc.Record.version_lt hlt (hkey.trans hr.2.symm)).le
  · rw [mem_singleton.mp hs]

theorem newest_eq_none : m.newest key = none ↔ ∀ s ∈ m.data.held, s.key ≠ key := by
  rw [newest, history, getLast?_eq_none_iff, filter_eq_nil_iff]
  simp

theorem newest_eq_some_iff : m.newest key = some r ↔
      r ∈ m.data.held ∧ r.key = key ∧ ∀ s ∈ m.data.held, s.key = key → s.version ≤ r.version := by
  refine ⟨newest_eq_some, fun ⟨hmem, hkey, hmax⟩ => ?_⟩
  cases h : m.newest key with
  | none => exact absurd hkey (newest_eq_none.mp h r hmem)
  | some s =>
    obtain ⟨hs, hskey, hsmax⟩ := newest_eq_some h
    have hversion := Nat.le_antisymm (hmax s hs hskey) (hsmax r hmem hkey)
    rw [m.data.functional_held s hs r hmem (hskey.trans hkey.symm) hversion]

/-- The operation is newer than what its key holds. -/
def Wins (m : MemoryEngine) (op : MergeOp) : Prop := ∀ r, m.newest op.key = some r → r.version < op.version

theorem mergeSlot_of_wins (h : m.Wins op) : (m.mergeSlot op).2.data = m.data.insert op := by
  have hany : ((m.latestVersionOf op.key).any fun cur => op.version ≤ cur) = false := by
    rw [latestVersionOf_eq]
    cases hnew : m.newest op.key with
    | none => rfl
    | some r => simpa using h r hnew
  rw [mergeSlot, hany]
  rfl

theorem mergeSlot_of_not_wins (h : ¬ m.Wins op) : (m.mergeSlot op).2 = m := by
  obtain ⟨r, hr, hle⟩ : ∃ r, m.newest op.key = some r ∧ op.version ≤ r.version := by
    simpa [Wins, not_forall] using h
  have hany : ((m.latestVersionOf op.key).any fun cur => op.version ≤ cur) = true := by
    rw [latestVersionOf_eq, hr]
    simpa using hle
  rw [mergeSlot, hany]
  rfl

theorem newest_mergeSlot_of_wins (h : m.Wins op) : (m.mergeSlot op).2.newest op.key = some op := by
  rw [newest_eq_some_iff, mergeSlot_of_wins h, Mvcc.Store.held_insert]
  refine ⟨.inl rfl, rfl, ?_⟩
  rintro s (rfl | ⟨hs, -⟩) hkey
  · exact le_rfl
  · cases hnew : m.newest op.key with
    | none => exact absurd hkey (newest_eq_none.mp hnew s hs)
    | some r => exact ((newest_eq_some hnew).2.2 s hs hkey).trans (h r hnew).le

theorem history_mergeSlot_of_ne (h : op.key ≠ key) : (m.mergeSlot op).2.history key = m.history key := by
  by_cases hwins : m.Wins op
  · refine (ordered_history _ key).ext (ordered_history _ key) fun s => ?_
    rw [mem_history, mem_history, mergeSlot_of_wins hwins, Mvcc.Store.held_insert]
    refine and_congr_left fun hkey => ⟨?_, fun hs => .inr ⟨hs, fun heq => h (heq.1.symm.trans hkey)⟩⟩
    rintro (rfl | ⟨hs, -⟩)
    · exact absurd hkey h
    · exact hs
  · rw [mergeSlot_of_not_wins hwins]

theorem newest_mergeSlot_of_ne (h : op.key ≠ key) : (m.mergeSlot op).2.newest key = m.newest key :=
  congrArg getLast? (history_mergeSlot_of_ne h)

theorem getAt_congr {m' : MemoryEngine} (h : m'.history key = m.history key) (version : Version) :
    m'.getAt key version = m.getAt key version := by
  have hread (m : MemoryEngine) : m.getAt key version =
      (((m.history key).filter fun r => r.version ≤ version).getLast?).bind live := by
    simp only [getAt, readAt, Mvcc.Store.newestAt, history, List.filter_filter, Bool.decide_and, Bool.and_comm]
  rw [hread, hread, h]

theorem newest_mergeSlot (m : MemoryEngine) (op : MergeOp) (key : Key) : (m.mergeSlot op).2.newest key =
      m.newest key ∨ op.key = key ∧ m.Wins op ∧ (m.mergeSlot op).2.newest key = some op := by
  by_cases hkey : op.key = key
  · by_cases hwins : m.Wins op
    · exact .inr ⟨hkey, hwins, hkey ▸ newest_mergeSlot_of_wins hwins⟩
    · exact .inl (by rw [mergeSlot_of_not_wins hwins])
  · exact .inl (newest_mergeSlot_of_ne hkey)

theorem newest_mergeSlot_congr {m' : MemoryEngine} (h : m'.newest op.key = m.newest op.key) :
    (m'.mergeSlot op).2.newest op.key = (m.mergeSlot op).2.newest op.key := by
  by_cases hwins : m.Wins op
  · rw [newest_mergeSlot_of_wins hwins, newest_mergeSlot_of_wins (by rwa [Wins, h])]
  · rw [mergeSlot_of_not_wins hwins, mergeSlot_of_not_wins (by rwa [Wins, h]), h]

@[simp] theorem mergeAll_nil : m.mergeAll [] = m := rfl

@[simp] theorem mergeAll_cons : m.mergeAll (op :: ops) = (m.mergeSlot op).2.mergeAll ops := rfl

theorem mergeAll_append (m : MemoryEngine) (ops rest : List MergeOp) :
    m.mergeAll (ops ++ rest) = (m.mergeAll ops).mergeAll rest := foldl_append

theorem newest_mergeAll (m : MemoryEngine) (ops : List MergeOp) (key : Key) :
    (m.mergeAll ops).newest key = m.newest key ∨ ∃ op ∈ ops, op.key = key ∧
    (m.mergeAll ops).newest key = some op := by
  induction ops generalizing m with
  | nil => exact .inl rfl
  | cons op ops ih =>
    rw [mergeAll_cons]
    rcases ih (m.mergeSlot op).2 with heq | ⟨op', hmem, hkey, heq⟩
    · rcases newest_mergeSlot m op key with hsame | ⟨hkey, -, hnew⟩
      · exact .inl (heq.trans hsame)
      · exact .inr ⟨op, mem_cons_self, hkey, heq.trans hnew⟩
    · exact .inr ⟨op', mem_cons_of_mem _ hmem, hkey, heq⟩

theorem newest_mergeAll_of_ne (h : ∀ op ∈ ops, op.key ≠ key) :
    (m.mergeAll ops).newest key = m.newest key := by
  rcases newest_mergeAll m ops key with heq | ⟨op, hmem, hkey, -⟩
  · exact heq
  · exact absurd hkey (h op hmem)

variable {version : Version}

/-- A key's newest record is at a version or above. -/
def Reaches (m : MemoryEngine) (key : Key) (version : Version) : Prop :=
  ∃ r, m.newest key = some r ∧ version ≤ r.version

theorem Reaches.mergeSlot (h : m.Reaches key version) (op : MergeOp) :
    (m.mergeSlot op).2.Reaches key version := by
  obtain ⟨r, hr, hle⟩ := h
  rcases newest_mergeSlot m op key with hsame | ⟨hkey, hwins, hnew⟩
  · exact ⟨r, hsame.trans hr, hle⟩
  · exact ⟨op, hnew, hle.trans (hwins r (hkey ▸ hr)).le⟩

theorem reaches_mergeSlot (m : MemoryEngine) (op : MergeOp) :
    (m.mergeSlot op).2.Reaches op.key op.version := by
  by_cases hwins : m.Wins op
  · exact ⟨op, newest_mergeSlot_of_wins hwins, le_rfl⟩
  · rw [mergeSlot_of_not_wins hwins]
    simpa [Wins, Reaches, not_forall] using hwins

theorem Reaches.mergeAll (h : m.Reaches key version) (ops : List MergeOp) :
    (m.mergeAll ops).Reaches key version := by
  induction ops generalizing m with
  | nil => exact h
  | cons op ops ih => exact ih (h.mergeSlot op)

theorem reaches_mergeAll (m : MemoryEngine) (h : op ∈ ops) : (m.mergeAll ops).Reaches op.key op.version := by
  induction ops generalizing m with
  | nil => cases h
  | cons first ops ih =>
    rcases mem_cons.mp h with rfl | h
    · exact (reaches_mergeSlot m op).mergeAll ops
    · exact ih _ h

variable {W W' : MemoryEngine → MergeOp → Prop} {m' m'' : MemoryEngine}

/-- A run of merges, each justified by the engine that it meets. -/
inductive Trace (W : MemoryEngine → MergeOp → Prop) : MemoryEngine → MemoryEngine → Prop
  | nil (m : MemoryEngine) : Trace W m m
  | cons {m m' : MemoryEngine} {op : MergeOp} (hop : W m op) (rest : Trace W (m.mergeSlot op).2 m') : Trace W m m'

namespace Trace

theorem single (h : W m op) : Trace W m (m.mergeSlot op).2 := .cons h (.nil _)

theorem trans (h : Trace W m m') (h' : Trace W m' m'') : Trace W m m'' := by
  induction h with
  | nil => exact h'
  | cons hop _ ih => exact .cons hop (ih h')

/-- Merges that are justified whatever engine they meet. -/
theorem of_forall (m : MemoryEngine) (h : ∀ op ∈ ops, ∀ cur, W cur op) : Trace W m (m.mergeAll ops) := by
  induction ops generalizing m with
  | nil => exact .nil m
  | cons op ops ih =>
    exact .cons (h op mem_cons_self m) (ih _ fun op' hop' => h op' (mem_cons_of_mem _ hop'))

theorem preserves {I : MemoryEngine → Prop} (h : Trace W m m')
    (hstep : ∀ cur op, I cur → W cur op → I (cur.mergeSlot op).2) (hI : I m) : I m' := by
  induction h with
  | nil => exact hI
  | cons hop _ ih => exact ih (hstep _ _ hI hop)

end Trace

theorem mem_keysInRange_all : key ∈ m.keysInRange [] none ↔ m.newest key ≠ none := by
  have hrange : InRange [] none key := ⟨not_lt.mp (not_lt_nil _), fun e he => by cases he⟩
  rw [keysInRange, mem_filter, Mvcc.Store.mem_keys, Ne, newest_eq_none]
  simp [hrange]

theorem mem_entries (hbound : Bounded m.data.held) {entry : Key × VersionedValue} :
    entry ∈ m.entries ↔ m.read entry.1 = some entry.2 := by
  have hread : m.readAt entry.1 versionMax = m.read entry.1 := get_eq_read hbound entry.1
  simp only [entries, entriesAt, rowsAt, mem_filterMap, mem_keysInRange_all, map_eq_some_iff]
  constructor
  · rintro ⟨key, -, v, hv, rfl⟩
    exact hread.symm.trans hv
  · intro h
    refine ⟨entry.1, fun hnone => ?_, entry.2, hread.trans h, rfl⟩
    rw [read, hnone] at h
    cases h

theorem mem_entriesWithTombstones {row : Key × Option Value × Version} :
    row ∈ m.entriesWithTombstones ↔ m.newest row.1 = some ⟨row.1, row.2.2, row.2.1⟩ := by
  simp only [entriesWithTombstones, latestRows, mem_filterMap, mem_keysInRange_all, map_eq_some_iff]
  constructor
  · rintro ⟨key, -, r, hr, rfl⟩
    obtain ⟨-, rfl, -⟩ := newest_eq_some (m := m) hr
    exact hr
  · intro h
    exact ⟨row.1, by simp [h], _, h, rfl⟩

variable (m) (floor : Version) (dropped : List (Key × Version))

/-- The records that a compaction may drop: those at or below the floor that a newer one at or below it
supersedes, and a tombstone there whose older records go with it. -/
def Reclaimable : Prop :=
  ∀ r ∈ m.data.records, (r.key, r.version) ∈ dropped → r.version ≤ floor ∧
    ((∃ s ∈ m.data.records, s.key = r.key ∧ r.version < s.version ∧ s.version ≤ floor) ∨
      r.value = none ∧ ∀ s ∈ m.data.records, s.key = r.key → s.version < r.version →
      (s.key, s.version) ∈ dropped)

instance : Decidable (m.Reclaimable floor dropped) := by
  have hmem : DecidablePred (· ∈ dropped) := fun d => decidable_of_iff (∃ e ∈ dropped, e = d) exists_eq_right
  unfold Reclaimable
  infer_instance

def reclaim : MemoryEngine :=
  { m with data := m.data.filter fun r => dropped.all fun d => d ≠ (r.key, r.version) }

variable {m floor dropped}

theorem mem_reclaim : r ∈ (m.reclaim dropped).data.held ↔ r ∈ m.data.held ∧ (r.key, r.version) ∉ dropped := by
  simp only [reclaim, Mvcc.Store.filter, Mvcc.Store.mem_held, List.mem_filter, List.all_eq_true, decide_eq_true_eq]
  exact and_congr_right fun _ => ⟨fun h hmem => h _ hmem rfl, fun h d hd heq => h (heq ▸ hd)⟩

/-- A compaction changes the newest record of a key in one way: a tombstone at or below the floor may go. -/
theorem newest_reclaim (h : m.Reclaimable floor dropped) (key : Key) :
    (m.reclaim dropped).newest key = m.newest key ∨
      ∃ r, m.newest key = some r ∧ r.value = none ∧ r.version ≤ floor ∧ (m.reclaim dropped).newest key = none := by
  cases hnewest : m.newest key with
  | none =>
    refine .inl (newest_eq_none.mpr fun s hs => ?_)
    exact newest_eq_none.mp hnewest s (mem_reclaim.mp hs).1
  | some r =>
    obtain ⟨hr, hkey, hmax⟩ := newest_eq_some hnewest
    by_cases hdropped : (r.key, r.version) ∈ dropped
    · obtain ⟨hfloor, ⟨s, hs, hskey, hlt, -⟩ | ⟨hdead, holder⟩⟩ := h r hr hdropped
      · have := hmax s hs (hskey.trans hkey)
        omega
      · refine .inr ⟨r, rfl, hdead, hfloor, newest_eq_none.mpr fun s hs hskey => ?_⟩
        obtain ⟨hs, hkept⟩ := mem_reclaim.mp hs
        have hsame := hskey.trans hkey.symm
        rcases Nat.lt_or_ge s.version r.version with hlt | hge
        · exact hkept (holder s hs hsame hlt)
        · rw [m.data.functional_held s hs r hr hsame (Nat.le_antisymm (hmax s hs hskey) hge)] at hkept
          exact hkept hdropped
    · refine .inl (newest_eq_some_iff.mpr ⟨mem_reclaim.mpr ⟨hr, hdropped⟩, hkey, fun s hs => ?_⟩)
      exact hmax s (mem_reclaim.mp hs).1

theorem newest_reclaim_of_value (h : m.Reclaimable floor dropped) {key : Key} (hnewest : m.newest key = some r)
    (hvalue : r.value.isSome) : (m.reclaim dropped).newest key = some r := by
  rcases newest_reclaim h key with hsame | ⟨r', hr', hdead, -⟩
  · exact hsame.trans hnewest
  · obtain rfl := some.inj (hnewest.symm.trans hr')
    rw [hdead] at hvalue
    cases hvalue

end AnimusDb.Lsm.MemoryEngine
