import AnimusDb.LsmCompact

/-! The layers of the tree: a shallower table holds newer versions of a key, and from level 1 on no two
tables of a level share a key. Flushes and compactions keep the layers, and a compaction hides nothing from
reads above its floor. -/

open OrderedList (Ordered)
open Mvcc (Agrees Functional)
open List

namespace AnimusDb.Lsm

/-- Every version `t` holds of a key is newer than every version `u` holds of it. -/
def Newer (t u : Store) : Prop :=
  ∀ r ∈ t.records, ∀ s ∈ u.records, s.key = r.key → s.version < r.version

/-- No key is in both. -/
def Apart (t u : Store) : Prop := ∀ r ∈ t.records, ∀ s ∈ u.records, r.key ≠ s.key

structure Layered (tables : List SsTable) : Prop where
  seqs : tables.Pairwise fun t u => t.seq < u.seq
  nonempty : ∀ t ∈ tables, t.records.records ≠ []
  levels : ∀ t ∈ tables, ∀ u ∈ tables, t.level < u.level → Newer t.records u.records
  apart : ∀ t ∈ tables, ∀ u ∈ tables, t.level = u.level → 0 < t.level → t.seq ≠ u.seq →
    Apart t.records u.records

variable {t u : SsTable}

theorem Layered.eq_of_seq {tables : List SsTable} (h : Layered tables) (ht : t ∈ tables)
    (hu : u ∈ tables) (hseq : t.seq = u.seq) : t = u := by
  by_contra hne
  have hsymm : Std.Symm fun t u : SsTable => t.seq ≠ u.seq := ⟨fun _ _ => Ne.symm⟩
  exact (h.seqs.imp fun hlt => hlt.ne).forall ht hu hne hseq

variable {r : Record} {opts : LsmOptions} {plan : CompactionPlan} {tables : List SsTable}

variable {fmt : TableFormat}

theorem mem_compactionInputs : t ∈ compactionInputs fmt opts plan tables ↔ t ∈ tables ∧
      if plan.l0Merge then t.level = 0 ∧ t.seq ∈ l0MergeGroup opts (tables.map (SsTable.meta fmt))
      else t.level = plan.sourceLevel ∨ (t.level = plan.targetLevel ∧
        ∃ slo shi, keyBounds fmt (tables.filter fun t => t.level = plan.sourceLevel) = some (slo, shi) ∧
          rangesOverlap (t.meta fmt) slo shi = true) := by
  unfold compactionInputs
  split_ifs
  · simp
  · dsimp only
    cases keyBounds fmt (tables.filter fun t => decide (t.level = plan.sourceLevel)) with
    | none => simp
    | some bounds =>
      obtain ⟨slo, shi⟩ := bounds
      simp only [mem_append, mem_filter, decide_eq_true_eq, Bool.decide_and, Bool.decide_eq_true,
        Bool.and_eq_true, Option.some.injEq, Prod.mk.injEq, and_or_left]
      refine or_congr_right (and_congr_right fun _ => and_congr_right fun _ => ?_)
      exact ⟨fun h => ⟨slo, shi, ⟨rfl, rfl⟩, h⟩, fun ⟨_, _, ⟨hlo, hhi⟩, h⟩ => hlo ▸ hhi ▸ h⟩

theorem compactionInputs_subset (ht : t ∈ compactionInputs fmt opts plan tables) : t ∈ tables :=
  (mem_compactionInputs.mp ht).1

theorem keyBounds_covers (fmt : TableFormat) (ht : t ∈ tables) (hr : r ∈ t.records.records) :
    ∃ slo shi, keyBounds fmt tables = some (slo, shi) ∧ slo ≤ r.key ∧ r.key ≤ shi := by
  have hstep : ∀ (bounds : Option (Key × Key)) (u : SsTable) (k : Key),
      (∃ slo shi, bounds = some (slo, shi) ∧ slo ≤ k ∧ k ≤ shi) →
        ∃ slo shi, widenBounds fmt bounds u = some (slo, shi) ∧ slo ≤ k ∧ k ≤ shi := by
    rintro _ u k ⟨slo, shi, rfl, hlo, hhi⟩
    unfold widenBounds
    split
    · exact ⟨_, _, rfl, (min_le_left _ _).trans hlo, hhi.trans (le_max_left _ _)⟩
    · exact ⟨slo, shi, rfl, hlo, hhi⟩
  have hkeep : ∀ (rest : List SsTable) (bounds : Option (Key × Key)),
      (∃ slo shi, bounds = some (slo, shi) ∧ slo ≤ r.key ∧ r.key ≤ shi) →
        ∃ slo shi, rest.foldl (widenBounds fmt) bounds = some (slo, shi) ∧ slo ≤ r.key ∧ r.key ≤ shi := by
    intro rest
    induction rest with
    | nil => exact fun _ h => h
    | cons u rest ih => exact fun bounds h => ih _ (hstep bounds u r.key h)
  obtain ⟨before, after, rfl⟩ := append_of_mem ht
  unfold keyBounds
  rw [foldl_append, foldl_cons]
  refine hkeep after _ ?_
  obtain ⟨lo, hlo, hle⟩ := t.minKey_le fmt hr
  obtain ⟨hi, hhi, hge⟩ := t.le_maxKey fmt hr
  generalize before.foldl (widenBounds fmt) none = bounds
  unfold widenBounds
  simp only [hlo, hhi]
  cases bounds with
  | none => exact ⟨lo, hi, rfl, hle, hge⟩
  | some bounds => exact ⟨_, _, rfl, (min_le_right _ _).trans hle, hge.trans (le_max_right _ _)⟩

theorem rangesOverlap_of_mem (hr : r ∈ t.records.records) {slo shi : Key}
    (hlo : slo ≤ r.key) (hhi : r.key ≤ shi) : rangesOverlap (t.meta fmt) slo shi = true := by
  obtain ⟨lo, hminKey, hle⟩ := t.minKey_le fmt hr
  obtain ⟨hi, hmaxKey, hge⟩ := t.le_maxKey fmt hr
  unfold rangesOverlap
  simp [hminKey, hmaxKey, hle.trans hhi, hlo.trans hge]

/-- A table of the target level that is left out shares no key with the inputs. -/
theorem apart_of_left_out (h : Layered tables) (hplan : plan.l0Merge = false)
    (ht : t ∈ compactionInputs fmt opts plan tables) (hu : u ∈ tables)
    (hout : u ∉ compactionInputs fmt opts plan tables) (hlevel : u.level = plan.targetLevel) :
      Apart t.records u.records := by
  intro r hr s hs hkey
  rw [mem_compactionInputs, hplan] at ht hout
  simp only [Bool.false_eq_true, ↓reduceIte, not_and] at ht hout
  have hnot := hout hu
  rcases ht.2 with hsource | ⟨htarget, -⟩
  · -- a key of the source level lies within its bounds, so the table would have been taken
    have hmem : t ∈ tables.filter fun t => decide (t.level = plan.sourceLevel) :=
      mem_filter.mpr ⟨ht.1, decide_eq_true hsource⟩
    obtain ⟨slo, shi, hbounds, hlo, hhi⟩ := keyBounds_covers fmt hmem hr
    exact hnot (.inr ⟨hlevel, slo, shi, hbounds, rangesOverlap_of_mem hs (hkey ▸ hlo) (hkey ▸ hhi)⟩)
  · have hpos : 0 < t.level := by
      rw [htarget, CompactionPlan.targetLevel, hplan]
      exact Nat.succ_pos _
    refine h.apart t ht.1 u hu (htarget.trans hlevel.symm) hpos ?_ r hr s hs hkey
    intro hseq
    obtain rfl := h.eq_of_seq ht.1 hu hseq
    exact hnot ht.2

/-- A table that is left out and holds a key of the inputs counts as deeper, or holds newer versions. -/
theorem left_out (h : Layered tables) (ht : t ∈ compactionInputs fmt opts plan tables)
    (hu : u ∈ tables) (hout : u ∉ compactionInputs fmt opts plan tables) {s : Record}
    (hr : r ∈ t.records.records) (hs : s ∈ u.records.records) (hkey : s.key = r.key) :
    keyOverlapsAny r.key (deeperRanges fmt plan tables
      ((compactionInputs fmt opts plan tables).map (·.seq))) = true ∨ r.version < s.version := by
  have hseq : u.seq ∉ (compactionInputs fmt opts plan tables).map (·.seq) := by
    intro hmem
    obtain ⟨v, hv, hvu⟩ := mem_map.mp hmem
    rw [h.eq_of_seq (compactionInputs_subset hv) hu hvu] at hv
    exact hout hv
  by_cases hdeep : plan.targetLevel < u.level ∨ (plan.l0Merge = true ∧ u.level = 0)
  · left
    obtain ⟨lo, hlo, hle⟩ := u.minKey_le fmt hs
    obtain ⟨hi, hhi, hge⟩ := u.le_maxKey fmt hs
    unfold keyOverlapsAny deeperRanges
    rw [any_eq_true]
    refine ⟨(lo, hi), mem_filterMap.mpr ⟨u, mem_filter.mpr ⟨hu, ?_⟩, ?_⟩, ?_⟩
    · rcases hdeep with hdeep | ⟨hmerge, hzero⟩
      · simp [hdeep]
      · simp only [hmerge, hzero, hseq, not_false_eq_true, and_self, or_true, decide_true]
    · simp [hlo, hhi]
    · simp [← hkey, hle, hge]
  · right
    simp only [not_or, not_lt, not_and] at hdeep
    cases hmerge : plan.l0Merge with
    | true =>
      have hzero := hdeep.2 hmerge
      have := hdeep.1
      rw [CompactionPlan.targetLevel, hmerge, if_pos rfl] at this
      omega
    | false =>
      have htarget : plan.targetLevel = plan.sourceLevel + 1 := by
        rw [CompactionPlan.targetLevel, hmerge]
        rfl
      have hle := hdeep.1
      by_cases hlevel : u.level = plan.targetLevel
      · exact absurd hkey.symm (apart_of_left_out h hmerge ht hu hout hlevel r hr s hs)
      · have htlevel := (mem_compactionInputs.mp ht).2
        have hulevel := hout
        rw [mem_compactionInputs] at hulevel
        simp only [hmerge, Bool.false_eq_true, ↓reduceIte, not_and, not_or] at htlevel hulevel
        have husource := (hulevel hu).1
        have hlt : u.level < t.level := by
          rcases htlevel with hl | ⟨hl, -⟩ <;> omega
        exact h.levels u hu t (compactionInputs_subset ht) hlt s hs r hr hkey.symm

variable {inputs : List SsTable} {maxVersion : Version}
  {held : List Version} {deeper : List (Key × Key)} {base : Nat}

/-- The records a compaction keeps of its inputs. -/
def keptRecords (opts : LsmOptions) (inputs : List SsTable) (maxVersion : Version) (held : List Version)
    (deeper : List (Key × Key)) : Store :=
  gcObsoleteRecords (mergeInputs inputs) (gcFloor opts maxVersion held) deeper

/-- Numbered tables of one level over a list of runs. -/
def numbered (base level : Nat) (runs : List Store) : List SsTable :=
  runs.mapIdx fun i run => ⟨base + i + 1, level, run⟩

theorem compactionOutputs_eq : compactionOutputs opts plan inputs maxVersion held deeper base =
      numbered base plan.targetLevel (partitionRecords (keptRecords opts inputs maxVersion held deeper)
        (if plan.l0Merge then u64Max else opts.targetTableBytes)) := rfl

theorem mem_numbered {level : Nat} {runs : List Store} : t ∈ numbered base level runs ↔
      ∃ (i : Nat) (hi : i < runs.length), t = ⟨base + i + 1, level, runs[i]⟩ := by
  simp only [numbered, mem_mapIdx]
  exact exists_congr fun i => exists_congr fun hi => eq_comm

theorem numbered_seqs (level : Nat) (runs : List Store) :
    (numbered base level runs).Pairwise fun t u => t.seq < u.seq := by
  rw [pairwise_iff_getElem]
  intro i j hi hj hij
  simp only [numbered, getElem_mapIdx]
  omega

theorem heldBy_numbered (level : Nat) (runs : List Store) :
    heldBy (numbered base level runs) = {r | ∃ run ∈ runs, r ∈ run.records} := by
  ext r
  constructor
  · rintro ⟨t, ht, hr⟩
    obtain ⟨i, hi, rfl⟩ := mem_numbered.mp ht
    exact ⟨runs[i], getElem_mem hi, hr⟩
  · rintro ⟨run, hrun, hr⟩
    obtain ⟨i, hi, rfl⟩ := getElem_of_mem hrun
    exact ⟨⟨base + i + 1, level, runs[i]⟩, mem_numbered.mpr ⟨i, hi, rfl⟩, hr⟩

theorem heldBy_outputs : heldBy (compactionOutputs opts plan inputs maxVersion held deeper base) =
    (keptRecords opts inputs maxVersion held deeper).held := by
  rw [compactionOutputs_eq, heldBy_numbered]
  ext r
  exact mem_partitionRecords

theorem outputs_level (ht : t ∈ compactionOutputs opts plan inputs maxVersion held deeper base) :
    t.level = plan.targetLevel ∧ base < t.seq ∧
      t.seq ≤ base + (compactionOutputs opts plan inputs maxVersion held deeper base).length := by
  rw [compactionOutputs_eq] at ht ⊢
  obtain ⟨i, hi, rfl⟩ := mem_numbered.mp ht
  have hlen : (numbered base plan.targetLevel (partitionRecords (keptRecords opts inputs maxVersion held deeper)
      (if plan.l0Merge then u64Max else opts.targetTableBytes))).length = (partitionRecords
        (keptRecords opts inputs maxVersion held deeper)
          (if plan.l0Merge then u64Max else opts.targetTableBytes)).length := length_mapIdx
  refine ⟨rfl, ?_, ?_⟩ <;> simp only [hlen] <;> omega

theorem outputs_runs (ht : t ∈ compactionOutputs opts plan inputs maxVersion held deeper base)
    (hu : u ∈ compactionOutputs opts plan inputs maxVersion held deeper base) :
    t.records.records ≠ [] ∧ (t.seq ≠ u.seq → Apart t.records u.records) := by
  rw [compactionOutputs_eq] at ht hu
  obtain ⟨i, hi, rfl⟩ := mem_numbered.mp ht
  obtain ⟨j, hj, rfl⟩ := mem_numbered.mp hu
  obtain ⟨hne, hbelow⟩ := cutRecords_runs (keptRecords opts inputs maxVersion held deeper).ordered
    (if plan.l0Merge then u64Max else opts.targetTableBytes)
  rw [← partitionRecords_records] at hne hbelow
  refine ⟨hne _ (mem_map_of_mem (getElem_mem hi)), fun hseq r hr s hs => ?_⟩
  rw [pairwise_map, pairwise_iff_getElem] at hbelow
  rcases Nat.lt_or_ge i j with hij | hij
  · exact (hbelow i j hi hj hij r hr s hs).ne
  · have hji : j < i := by
      simp only at hseq
      omega
    exact (hbelow j i hj hi hji s hs r hr).ne'

variable (fmt) (opts : LsmOptions) (plan : CompactionPlan) (inner : Inner)

/-- The floor of a compaction, the version just above it being the horizon it moves to. -/
def Inner.compactionFloor : Version := gcFloor opts inner.manifest.maxVersion inner.heldSnapshots

/-- The tables a compaction leaves in place. -/
def survivors (tables : List SsTable) : List SsTable :=
  tables.filter fun t => t.seq ∉ (compactionInputs fmt opts plan tables).map (·.seq)

/-- The tables a compaction of the engine writes. -/
def Inner.compactionOutputs : List SsTable :=
  let tables := inner.manifest.tables
  let inputs := compactionInputs fmt opts plan tables
  Lsm.compactionOutputs opts plan inputs inner.manifest.maxVersion inner.heldSnapshots
    (deeperRanges fmt plan tables (inputs.map (·.seq))) inner.allocSeq

variable {fmt opts plan inner}

theorem mem_survivors (h : Layered tables) :
    t ∈ survivors fmt opts plan tables ↔ t ∈ tables ∧ t ∉ compactionInputs fmt opts plan tables := by
  unfold survivors
  rw [mem_filter, decide_eq_true_eq]
  refine and_congr_right fun ht => not_congr ⟨fun hmem => ?_, fun hmem => mem_map_of_mem hmem⟩
  obtain ⟨u, hu, hut⟩ := mem_map.mp hmem
  rwa [h.eq_of_seq (compactionInputs_subset hu) ht hut] at hu

theorem Inner.runCompaction_tables (h : Layered inner.manifest.tables)
    (halloc : ∀ t ∈ inner.manifest.tables, t.seq ≤ inner.allocSeq)
    (hinputs : compactionInputs fmt opts plan inner.manifest.tables ≠ []) :
      (inner.runCompaction fmt opts plan).manifest.tables =
      survivors fmt opts plan inner.manifest.tables ++ inner.compactionOutputs fmt opts plan := by
  have hsorted : (survivors fmt opts plan inner.manifest.tables ++
      inner.compactionOutputs fmt opts plan).Pairwise fun a b => a.seq ≤ b.seq := by
    refine pairwise_append.mpr ⟨?_, ?_, ?_⟩
    · exact (h.seqs.sublist filter_sublist).imp le_of_lt
    · exact (numbered_seqs _ _).imp le_of_lt
    · intro t ht u hu
      exact (halloc t ((mem_survivors h).mp ht).1).trans (outputs_level hu).2.1.le
  unfold Inner.runCompaction
  dsimp only
  rw [if_neg (by simpa using hinputs)]
  exact hsorted.insertionSort_eq

theorem level_le_target (ht : t ∈ compactionInputs fmt opts plan tables) : t.level ≤ plan.targetLevel := by
  have hlevel := (mem_compactionInputs.mp ht).2
  unfold CompactionPlan.targetLevel at *
  split_ifs at hlevel ⊢ with hmerge
  · exact hlevel.1.le
  · rcases hlevel with hlevel | ⟨hlevel, -⟩ <;> omega

theorem level_lt_inputs (ht : t ∈ compactionInputs fmt opts plan tables) (hu : u ∈ tables)
    (hout : u ∉ compactionInputs fmt opts plan tables) (hlt : u.level < plan.targetLevel) :
    u.level < t.level := by
  have hlevel := (mem_compactionInputs.mp ht).2
  rw [mem_compactionInputs, not_and] at hout
  have hsource := hout hu
  unfold CompactionPlan.targetLevel at *
  split_ifs at hlevel hlt hsource with hmerge
  · omega
  · rw [not_or] at hsource
    have := hsource.1
    rcases hlevel with hlevel | ⟨hlevel, -⟩ <;> omega

theorem Layered.compacted (h : Layered inner.manifest.tables)
    (halloc : ∀ t ∈ inner.manifest.tables, t.seq ≤ inner.allocSeq)
    (hheld : Functional (heldBy inner.manifest.tables)) :
    Layered (survivors fmt opts plan inner.manifest.tables ++ inner.compactionOutputs fmt opts plan) := by
  have hfun : Functional (heldBy (compactionInputs fmt opts plan inner.manifest.tables)) :=
    hheld.subset fun r ⟨t, ht, hr⟩ => ⟨t, compactionInputs_subset ht, hr⟩
  -- a record of an output is one of an input
  have hfrom : ∀ t ∈ inner.compactionOutputs fmt opts plan, ∀ r ∈ t.records.records,
      ∃ v ∈ compactionInputs fmt opts plan inner.manifest.tables, r ∈ v.records.records := by
    intro t ht r hr
    have hmem : r ∈ heldBy (inner.compactionOutputs fmt opts plan) := ⟨t, ht, hr⟩
    rw [Inner.compactionOutputs, heldBy_outputs] at hmem
    change r ∈ heldBy _
    rw [← held_mergeInputs hfun]
    exact (mem_gcObsoleteRecords.mp hmem).1
  refine ⟨?_, ?_, ?_, ?_⟩
  · refine pairwise_append.mpr ⟨h.seqs.sublist filter_sublist, numbered_seqs _ _, ?_⟩
    intro t ht u hu
    exact (halloc t ((mem_survivors h).mp ht).1).trans_lt (outputs_level hu).2.1
  · intro t ht
    rcases mem_append.mp ht with ht | ht
    · exact h.nonempty t ((mem_survivors h).mp ht).1
    · exact (outputs_runs ht ht).1
  · intro t ht u hu hlt r hr s hs hkey
    rcases mem_append.mp ht with ht | ht <;> rcases mem_append.mp hu with hu | hu
    · exact h.levels t ((mem_survivors h).mp ht).1 u ((mem_survivors h).mp hu).1 hlt r hr s hs hkey
    · obtain ⟨ht, hout⟩ := (mem_survivors h).mp ht
      obtain ⟨v, hv, hs⟩ := hfrom u hu s hs
      rw [(outputs_level hu).1] at hlt
      exact h.levels t ht v (compactionInputs_subset hv) (level_lt_inputs hv ht hout hlt) r hr s hs hkey
    · obtain ⟨hu, -⟩ := (mem_survivors h).mp hu
      obtain ⟨v, hv, hr⟩ := hfrom t ht r hr
      rw [(outputs_level ht).1] at hlt
      exact h.levels v (compactionInputs_subset hv) u hu ((level_le_target hv).trans_lt hlt) r hr s hs hkey
    · rw [(outputs_level ht).1, (outputs_level hu).1] at hlt
      exact absurd hlt (lt_irrefl _)
  · intro t ht u hu hlevel hpos hseq r hr s hs
    have hmerge : ∀ v ∈ inner.compactionOutputs fmt opts plan, 0 < v.level → plan.l0Merge = false := by
      intro v hv hv0
      rw [(outputs_level hv).1, CompactionPlan.targetLevel] at hv0
      by_contra hmerge
      rw [Bool.not_eq_false] at hmerge
      simp [hmerge] at hv0
    rcases mem_append.mp ht with ht | ht <;> rcases mem_append.mp hu with hu | hu
    · exact h.apart t ((mem_survivors h).mp ht).1 u ((mem_survivors h).mp hu).1 hlevel hpos hseq r hr s hs
    · obtain ⟨ht, hout⟩ := (mem_survivors h).mp ht
      obtain ⟨v, hv, hs⟩ := hfrom u hu s hs
      have htarget := hlevel.trans (outputs_level hu).1
      exact (apart_of_left_out h (hmerge u hu (hlevel ▸ hpos)) hv ht hout htarget s hs r hr).symm
    · obtain ⟨hu, hout⟩ := (mem_survivors h).mp hu
      obtain ⟨v, hv, hr⟩ := hfrom t ht r hr
      have htarget := hlevel.symm.trans (outputs_level ht).1
      exact apart_of_left_out h (hmerge t ht hpos) hv hu hout htarget r hr s hs
    · exact (outputs_runs ht hu).2 hseq r hr s hs

end AnimusDb.Lsm
