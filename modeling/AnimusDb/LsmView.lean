import AnimusDb.LsmMemory

/-! What the reads of the two engines see: the newest record of a key over everything they hold. -/

open OrderedList (Ordered)
open Mvcc (Answers Functional Newest Winners)

open List Option

namespace AnimusDb.Lsm

def heldBy (tables : List SsTable) : Set Record := {r | ∃ t ∈ tables, r ∈ t.records.records}

def Inner.held (inner : Inner) : Set Record := inner.memtable.held ∪ heldBy inner.manifest.tables

@[simp] theorem heldBy_nil : heldBy [] = ∅ := by
  simp [heldBy]

theorem heldBy_cons (t : SsTable) (tables : List SsTable) :
    heldBy (t :: tables) = t.records.held ∪ heldBy tables := by
  ext r
  simp [heldBy]

theorem heldBy_reverse (tables : List SsTable) : heldBy tables.reverse = heldBy tables := by
  simp [heldBy]

/-- Versions are 64-bit numbers. -/
def Bounded (S : Set Record) : Prop := ∀ r ∈ S, r.version ≤ versionMax

variable {best : Option Record} {inner : Inner} {fmt : TableFormat} {version : Version} {S : Set Record}

variable {key : Key}

/-- A table none of whose records could improve the answer. -/
theorem answers_skipTable (h : Answers S key version best) {t : SsTable}
    (hskip : version < (t.meta fmt).minVersion ∨ (∃ b ∈ best, (t.meta fmt).maxVersion ≤ b.version) ∨
      (t.meta fmt).mayContain key = false) : Answers (S ∪ t.records.held) key version best := by
  refine h.skip fun s hs hkey hle => ?_
  rcases hskip with hlt | ⟨b, hb, hmax⟩ | hmay
  · exact absurd (t.minVersion_le fmt hs) (Nat.not_le.mpr (hle.trans_lt hlt))
  · exact ⟨b, hb, (t.le_maxVersion fmt hs).trans hmax⟩
  · have := t.mayContain_meta fmt hs
    rw [hkey, hmay] at this
    cases this

theorem answers_considerTable (h : Answers S key version best) (t : SsTable) :
    Answers (S ∪ t.records.held) key version (considerTable fmt key version best t) := by
  unfold considerTable
  split_ifs with hskip hmay
  · rcases hskip with hlt | hbest
    · exact answers_skipTable h (.inl hlt)
    · cases best with
      | none => simp at hbest
      | some b => exact answers_skipTable h (.inr (.inl ⟨b, rfl, by simpa using hbest⟩))
  · exact answers_skipTable h (.inr (.inr (by simpa using hmay)))
  · have hboth := h.newer (t.answers_getAt key version)
    cases hget : t.getAt key version with
    | none =>
      rw [hget] at hboth
      cases best <;> exact hboth
    | some r =>
      rw [hget] at hboth
      cases best with
      | none => exact hboth
      | some b => simpa [Mvcc.newer] using hboth

/-- A loop over tables that keeps `I` at each one has gathered them all. -/
theorem foldl_tables {σ : Type} {f : σ → SsTable → σ} {I : Set Record → σ → Prop} {tables : List SsTable}
    (hstep : ∀ t ∈ tables, ∀ S st, I S st → I (S ∪ t.records.held) (f st t)) {st : σ} (h : I S st) :
    I (S ∪ heldBy tables) (tables.foldl f st) := by
  induction tables generalizing S st with
  | nil => simpa using h
  | cons t tables ih =>
    have hrest := ih (fun u hu => hstep u (mem_cons_of_mem _ hu)) (hstep t mem_cons_self S st h)
    rwa [Set.union_assoc, ← heldBy_cons] at hrest

theorem Inner.answers_readAt (fmt : TableFormat) (inner : Inner) (key : Key) (version : Version) :
    ∃ hit, Answers inner.held key version hit ∧ inner.readAt fmt key version = hit.bind live := by
  refine ⟨_, ?_, rfl⟩
  rw [Inner.held, ← heldBy_reverse]
  exact foldl_tables (I := fun S best => Answers S key version best)
    (fun t _ _ _ h => answers_considerTable h t) (inner.memtable.answers_newestAt key version)

theorem considerLatest_answers (h : Answers S key versionMax best) (t : SsTable) :
    ∃ next, Answers (S ∪ t.records.held) key versionMax next ∧
      considerLatest fmt key (best.map (·.version)) t = next.map (·.version) := by
  unfold considerLatest
  split_ifs with hskip hmay
  · cases best with
    | none => simp at hskip
    | some b => exact ⟨_, answers_skipTable h (.inr (.inl ⟨b, rfl, by simpa using hskip⟩)), rfl⟩
  · exact ⟨_, answers_skipTable h (.inr (.inr (by simpa using hmay))), rfl⟩
  · refine ⟨_, h.newer (t.answers_getAt key versionMax), ?_⟩
    unfold SsTable.latest
    cases t.getAt key versionMax with
    | none => cases best <;> rfl
    | some r =>
      cases best with
      | none => rfl
      | some b =>
        simp only [Mvcc.newer, map_some, elim_some]
        split_ifs with hlt
        · rw [map_some, max_eq_right hlt.le]
        · rw [map_some, max_eq_left (Nat.not_lt.mp hlt)]

/-- The last record of a key is its newest as of the greatest version. -/
theorem newestAt_versionMax {store : Store} (hbound : Bounded store.held) (key : Key) :
    (store.records.filter fun r => r.key = key).getLast? = store.newestAt key versionMax := by
  unfold Mvcc.Store.newestAt
  congr 1
  refine filter_congr fun r hr => ?_
  simp [hbound r hr]

theorem Inner.latestVersionOf_answers (fmt : TableFormat) (hbound : Bounded inner.held) (key : Key) :
    ∃ hit, Answers inner.held key versionMax hit ∧ inner.latestVersionOf fmt key = hit.map (·.version) := by
  have hmem : inner.memtableLatestVersionOf key = (inner.memtable.newestAt key versionMax).map (·.version) := by
    rw [Inner.memtableLatestVersionOf, newestAt_versionMax fun r hr => hbound r (.inl hr)]
  unfold Inner.latestVersionOf
  rw [hmem, Inner.held, ← heldBy_reverse]
  refine foldl_tables (I := fun S best => ∃ hit, Answers S key versionMax hit ∧ best = hit.map (·.version))
    ?_ ⟨_, inner.memtable.answers_newestAt key versionMax, rfl⟩
  rintro t - S best ⟨hit, hans, rfl⟩
  exact considerLatest_answers hans t

theorem any_le_of_answers {hit : Option Record} (h : Answers S key versionMax hit) (hbound : Bounded S) :
    (hit.map (·.version)).any (fun cur => version ≤ cur) = true ↔ ∃ r ∈ S, r.key = key ∧
    version ≤ r.version := by
  cases hit with
  | none =>
    simp only [map_none, any_none, Bool.false_eq_true, false_iff, not_exists, not_and]
    intro r hr hkey
    exact absurd (hbound r hr) (Nat.not_le.mpr (h r hr hkey))
  | some b =>
    simp only [map_some, any_some, decide_eq_true_eq]
    constructor
    · intro hle
      exact ⟨b, h.mem, h.key_eq, hle⟩
    · rintro ⟨r, hr, hkey, hle⟩
      exact hle.trans (h.newest r hr hkey (hbound r hr))

/-- The merge decision: some version of the key is not older. -/
theorem Inner.latestVersionOf_any (fmt : TableFormat) (hbound : Bounded inner.held) :
    (inner.latestVersionOf fmt key).any (fun cur => version ≤ cur) = true ↔
      ∃ r ∈ inner.held, r.key = key ∧ version ≤ r.version := by
  obtain ⟨hit, hans, heq⟩ := inner.latestVersionOf_answers fmt hbound key
  rw [heq, any_le_of_answers hans hbound]

theorem MemoryEngine.latestVersionOf_any {m : MemoryEngine} (hbound : Bounded m.data.held) :
    (m.latestVersionOf key).any (fun cur => version ≤ cur) = true ↔ ∃ r ∈ m.data.held, r.key = key ∧
    version ≤ r.version := by
  rw [MemoryEngine.latestVersionOf, newestAt_versionMax hbound,
    any_le_of_answers (m.data.answers_newestAt key versionMax) hbound]

variable {start : Key} {stop : Option Key} {T : Set Record}
  {merged rows : List Record}

theorem winners_mergeRows (hT : Functional T) (h : Winners (InRange start stop) version S merged)
    (hS : S ⊆ T) {U : Set Record} (hU : U ⊆ T) (hrows : Winners (InRange start stop) version U rows) :
    Winners (InRange start stop) version (S ∪ U) (rows.foldl mergeWinner merged) := by
  refine Winners.of_rows ?_ hrows
  refine (Mvcc.foldl_gather (I := fun S merged => S ⊆ T ∧ Winners (InRange start stop) version S merged) ?_
    ⟨hS, h⟩).2
  rintro r hr S merged ⟨hS, h⟩
  have hnew := hrows.newest hr
  refine ⟨Set.union_subset hS (Set.singleton_subset_iff.mpr (hU hnew.mem)),
    h.upsert (hrows.inside r hr) hnew.visible fun old hold hkey => ?_⟩
  rcases Nat.lt_trichotomy old.version r.version with hlt | heq | hgt
  · rw [if_neg hlt.asymm, if_pos hlt]
  · -- one record for a key and a version
    rw [hT old (hS (h.newest hold).mem) r (hU hnew.mem) hkey heq, ite_self]
  · rw [if_pos hgt, if_neg hgt.asymm]

theorem sstableOverlaps_of_mem {t : SsTable} {r : Record} (hr : r ∈ t.records.records)
    (hin : InRange start stop r.key) : sstableOverlaps (t.meta fmt) start stop = true := by
  obtain ⟨lo, hlo, hle⟩ := t.minKey_le fmt hr
  obtain ⟨hi, hhi, hge⟩ := t.le_maxKey fmt hr
  unfold sstableOverlaps
  simp only [hlo, hhi, Bool.and_eq_true, decide_eq_true_eq]
  refine ⟨hin.1.trans hge, ?_⟩
  cases stop with
  | none => rfl
  | some e => simpa using hle.trans_lt (hin.2 e rfl)

theorem Inner.winners_mergedAt (fmt : TableFormat) (hheld : Functional inner.held)
    (start : Key) (stop : Option Key) (version : Version) :
    Winners (InRange start stop) version inner.held (inner.mergedAt fmt start stop version) := by
  unfold Inner.mergedAt
  rw [Inner.held, Set.union_comm]
  have htables : Winners (InRange start stop) version (heldBy inner.manifest.tables)
    (inner.manifest.tables.foldl (fun merged t =>
        if sstableOverlaps (t.meta fmt) start stop then
          (t.scanAt start stop version).foldl mergeWinner merged
        else merged) []) := by
    rw [← Set.empty_union (heldBy inner.manifest.tables)]
    refine (foldl_tables (I := fun S merged => S ⊆ inner.held ∧ Winners (InRange start stop) version S merged)
      ?_ ⟨Set.empty_subset _, .nil⟩).2
    rintro t ht S merged ⟨hS, h⟩
    have htheld : t.records.held ⊆ inner.held := fun r hr => .inr ⟨t, ht, hr⟩
    refine ⟨Set.union_subset hS htheld, ?_⟩
    split_ifs with hover
    · exact winners_mergeRows hheld h hS htheld (t.winners_scanAt start stop version)
    · exact h.skip fun r hr => .inl fun hin => hover (sstableOverlaps_of_mem hr hin)
  exact winners_mergeRows hheld htables (fun r hr => .inr hr) (fun r hr => .inl hr)
    (inner.memtable.winners_newestRows (InRange start stop) version)

/-- A row that history reclamation may not take: live, or at or above the horizon. -/
def keptRow (horizon : Version) (row : Key × Option Value × Version) : Bool :=
  row.2.1.isSome || decide (horizon ≤ row.2.2)

/-- Every query at a version that is not below the reclaimed history answers the same on both engines; of
the tombstones, those at or above the horizon are shown by both. -/
structure Observes (fmt : TableFormat) (horizon : Version) (inner : Inner) (m : MemoryEngine) : Prop where
  get : ∀ key, inner.get fmt key = m.get key
  getAt : ∀ key version, horizon ≤ version + 1 → inner.getAt fmt key version = m.getAt key version
  scan : ∀ start stop, inner.scan fmt start stop = m.scan start stop
  scanAt : ∀ start stop version, horizon ≤ version + 1 →
    inner.scanAt fmt start stop version = m.scanAt start stop version
  entries : inner.entries fmt = m.entries
  entriesAt : ∀ version, horizon ≤ version + 1 → inner.entriesAt fmt version = m.entriesAt version
  entriesWithTombstones : (inner.entriesWithTombstones fmt).filter (keptRow horizon) =
    m.entriesWithTombstones.filter (keptRow horizon)
  scanWithTombstones : ∀ start stop, start ≤ stop → (inner.scanWithTombstones fmt start stop).filter
      (keptRow horizon) = (m.scanWithTombstones start stop).filter (keptRow horizon)
  latestVersion : inner.latestVersion = m.latestVersion

variable {m : MemoryEngine} {horizon : Version}

theorem bind_live_eq_filter (hit : Option Record) :
    hit.bind live = (hit.filter (·.value.isSome)).bind live := by
  cases hit with
  | none => rfl
  | some r =>
    cases hvalue : r.value with
    | none => simp [live, hvalue, Option.filter]
    | some v => simp [Option.filter, hvalue]

theorem filterMap_liveRow_eq_filter (rows : List Record) :
    rows.filterMap liveRow = (rows.filter (·.value.isSome)).filterMap liveRow := by
  rw [filterMap_filter]
  refine filterMap_congr fun r _ => ?_
  cases hvalue : r.value with
  | none => simp [liveRow, live, hvalue]
  | some v => simp

theorem MemoryEngine.rowsAt_eq (m : MemoryEngine) (start : Key) (stop : Option Key) (version : Version) :
    m.rowsAt start stop version = (m.data.newestRows (InRange start stop) version).filterMap liveRow := by
  unfold MemoryEngine.rowsAt MemoryEngine.keysInRange Mvcc.Store.newestRows
  rw [filterMap_filterMap]
  refine filterMap_congr fun key _ => ?_
  unfold MemoryEngine.readAt
  cases hnew : m.data.newestAt key version with
  | none => rfl
  | some r => simp [liveRow, Mvcc.Store.newestAt_key hnew]

theorem MemoryEngine.latestRows_eq (hbound : Bounded m.data.held) (start : Key) (stop : Option Key) :
    m.latestRows start stop = (m.data.newestRows (InRange start stop) versionMax).map tombstoneRow := by
  unfold MemoryEngine.latestRows MemoryEngine.keysInRange Mvcc.Store.newestRows
  rw [map_filterMap]
  refine filterMap_congr fun key _ => ?_
  rw [newestAt_versionMax hbound]

theorem filter_keptRow_map (rows : List Record) : (rows.map tombstoneRow).filter (keptRow horizon) =
      (rows.filter fun r => r.value.isSome || decide (horizon ≤ r.version)).map tombstoneRow := by
  rw [List.filter_map]
  rfl

theorem rowsAt_of_agrees (h : Mvcc.Agrees horizon inner.held m.data.held) (start : Key) (stop : Option Key)
    {version : Version} (hv : horizon ≤ version + 1) :
    (inner.mergedAt fmt start stop version).filterMap liveRow = m.rowsAt start stop version := by
  have hT := m.data.functional_held
  rw [m.rowsAt_eq, filterMap_liveRow_eq_filter, filterMap_liveRow_eq_filter (m.data.newestRows _ _),
    h.live_rows hT hv (inner.winners_mergedAt fmt (hT.subset h.sub) start stop version)
      (m.data.winners_newestRows (InRange start stop) version)]

theorem observes_of_agrees (h : Mvcc.Agrees horizon inner.held m.data.held)
    (hbound : Bounded m.data.held) (hmax : inner.manifest.maxVersion = m.maxVersion)
    (hreach : horizon ≤ versionMax + 1) : Observes fmt horizon inner m := by
  have hT := m.data.functional_held
  have hS := hT.subset h.sub
  have hread : ∀ key version, horizon ≤ version + 1 →
    inner.readAt fmt key version = m.readAt key version := by
    intro key version hv
    obtain ⟨hit, hans, heq⟩ := inner.answers_readAt fmt key version
    rw [heq, MemoryEngine.readAt, bind_live_eq_filter, bind_live_eq_filter (m.data.newestAt key version),
      h.live_eq hT hv hans (m.data.answers_newestAt key version)]
  have hrows : ∀ start stop version, horizon ≤ version + 1 →
      (inner.mergedAt fmt start stop version).filterMap liveRow = m.rowsAt start stop version :=
    fun start stop version hv => rowsAt_of_agrees h start stop hv
  have htomb : ∀ start stop, ((inner.mergedAt fmt start stop versionMax).map tombstoneRow).filter
      (keptRow horizon) = (m.latestRows start stop).filter (keptRow horizon) := by
    intro start stop
    rw [MemoryEngine.latestRows_eq hbound, filter_keptRow_map, filter_keptRow_map,
      h.kept_rows hT hreach (inner.winners_mergedAt fmt hS start stop versionMax)
        (m.data.winners_newestRows (InRange start stop) versionMax)]
  have hscan : ∀ start stop version, horizon ≤ version + 1 →
      inner.scanAt fmt start stop version = m.scanAt start stop version := by
    intro start stop version hv
    unfold Inner.scanAt MemoryEngine.scanAt
    rw [hrows start (some stop) version hv]
  exact {
    get := fun key => hread key versionMax hreach
    getAt := hread
    scan := fun start stop => hscan start stop versionMax hreach
    scanAt := hscan, entries := hrows [] none versionMax hreach, entriesAt := hrows [] none
    entriesWithTombstones := htomb [] none
    scanWithTombstones := fun start stop _ => htomb start (some stop)
    latestVersion := hmax }

end AnimusDb.Lsm
