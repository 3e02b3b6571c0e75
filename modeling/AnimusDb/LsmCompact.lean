import AnimusDb.LsmView

/-! Compaction: what the merge of the inputs holds, which records the reclamation of history drops, and how
the result is cut into runs. -/

open OrderedList (Ordered)
open List

namespace AnimusDb.Lsm

variable {r : Record} {st : GcState}

variable (floor : Version) (deeper : List (Key × Key))

/-- The records of a key at or below the floor. -/
def floorGroup (records : List Record) (key : Key) : List Record :=
  records.filter fun r => r.key = key ∧ r.version ≤ floor

/-- The slots that may go: those another version at or below the floor shadows, and a tombstone on top of
them if no deeper table needs it. -/
def Reclaimed (records : List Record) (key : Key) (version : Version) : Prop :=
  ∃ r ∈ floorGroup floor records key, r.version = version ∧
    ((∃ s ∈ floorGroup floor records key, version < s.version) ∨
      (r.value = none ∧ keyOverlapsAny key deeper = false ∧ ∀ s ∈ floorGroup floor records key,
      s.version ≤ version))

variable {floor deeper} {key : Key} {version : Version} {records : List Record}

theorem mem_floorGroup : r ∈ floorGroup floor records key ↔ r ∈ records ∧ r.key = key ∧
    r.version ≤ floor := by
  simp [floorGroup]

theorem floorGroup_append (records others : List Record) : floorGroup floor (records ++ others) key =
      floorGroup floor records key ++ floorGroup floor others key :=
  filter_append _ _

/-- The versions and tombstone flags the loop keeps of a group. -/
def floorFlags (group : List Record) : List (Version × Bool) :=
  group.map fun r => (r.version, r.value.isNone)

theorem mem_closeKey (hord : Ordered Mvcc.Record.slot records) (cur : Key) :
    (key, version) ∈ closeKey deeper cur (floorFlags (floorGroup floor records cur)) ↔
      key = cur ∧ Reclaimed floor deeper records cur version := by
  have hasc : (floorGroup floor records cur).Pairwise fun r s => r.version < s.version := by
    refine (hord.filter _).imp_of_mem fun {r s} hr hs hlt => ?_
    exact Mvcc.Record.version_lt hlt ((mem_floorGroup.mp hr).2.1.trans (mem_floorGroup.mp hs).2.1.symm)
  unfold closeKey Reclaimed
  generalize floorGroup floor records cur = group at hasc
  cases hlast : group.getLast? with
  | none => simp [getLast?_eq_none_iff.mp hlast, floorFlags]
  | some anchor =>
    obtain ⟨before, rfl⟩ := getLast?_eq_some_iff.mp hlast
    have hbelow : ∀ r ∈ before, r.version < anchor.version := fun r hr =>
      (pairwise_append.mp hasc).2.2 r hr anchor (mem_singleton_self _)
    have hle : ∀ r ∈ before ++ [anchor], r.version ≤ anchor.version :=
      forall_mem_append.mpr ⟨fun r hr => (hbelow r hr).le, forall_mem_singleton.mpr le_rfl⟩
    have hflags : (floorFlags (before ++ [anchor])).getLast? =
      some (anchor.version, anchor.value.isNone) := by simp [floorFlags]
    rw [hflags]
    dsimp only
    rw [mem_append]
    constructor
    · rintro (hmem | hmem)
      · -- a version the anchor shadows
        obtain ⟨⟨v, flag⟩, hv, heq⟩ := mem_map.mp hmem
        obtain ⟨hv, hlt⟩ := mem_filter.mp hv
        obtain ⟨r, hr, hrv⟩ := mem_map.mp hv
        simp only [Prod.mk.injEq] at heq hrv
        obtain ⟨rfl, rfl⟩ := heq
        obtain ⟨rfl, -⟩ := hrv
        exact ⟨rfl, r, hr, rfl, .inl ⟨anchor, by simp, by simpa using hlt⟩⟩
      · split_ifs at hmem with htomb
        · simp only [mem_singleton, Prod.mk.injEq] at hmem
          obtain ⟨rfl, rfl⟩ := hmem
          simp only [Bool.and_eq_true, Option.isNone_iff_eq_none, Bool.not_eq_true'] at htomb
          exact ⟨rfl, anchor, by simp, rfl, .inr ⟨htomb.1, htomb.2, hle⟩⟩
        · cases hmem
    · rintro ⟨rfl, r, hr, rfl, ⟨s, hs, hlt⟩ | ⟨htomb, hover, hnewest⟩⟩
      · refine .inl (mem_map.mpr ⟨(r.version, r.value.isNone), mem_filter.mpr ⟨?_, ?_⟩, rfl⟩)
        · exact mem_map.mpr ⟨r, hr, rfl⟩
        · simpa using hlt.trans_le (hle s hs)
      · have hanchor : r = anchor := by
          rcases mem_append.mp hr with hr | hr
          · exact absurd (hnewest anchor (by simp)) (Nat.not_le.mpr (hbelow r hr))
          · exact mem_singleton.mp hr
        subst hanchor
        right
        simp [htomb, hover]

/-- What the loop knows after the records it has visited. -/
structure GcState.Visited (floor : Version) (deeper : List (Key × Key)) (done : List Record)
    (st : GcState) : Prop where
  cur : st.curKey = done.getLast?.map (·.key)
  versions : ∀ key, st.curKey = some key → st.floorVersions = floorFlags (floorGroup floor done key)
  drop : ∀ key version, (key, version) ∈ st.toDrop ↔ st.curKey ≠ some key ∧
    Reclaimed floor deeper done key version

variable {done : List Record}

/-- Closing out the current key settles every key visited. -/
theorem GcState.Visited.flushKey (h : st.Visited floor deeper done) (hord : Ordered Mvcc.Record.slot done)
    (key : Key) (version : Version) : (key, version) ∈ (st.flushKey deeper).toDrop ↔
      Reclaimed floor deeper done key version := by
  unfold GcState.flushKey
  rw [mem_append, h.drop]
  cases hcur : st.curKey with
  | none => simp
  | some cur =>
    rw [Option.elim_some, h.versions cur hcur, mem_closeKey hord]
    by_cases hkey : key = cur
    · simp [hkey]
    · simp [hkey, Ne.symm hkey]

theorem reclaimed_append_of_ne (hne : r.key ≠ key) :
    Reclaimed floor deeper (done ++ [r]) key version ↔ Reclaimed floor deeper done key version := by
  have hgroup : floorGroup floor (done ++ [r]) key = floorGroup floor done key := by
    rw [floorGroup_append]
    simp [floorGroup, hne]
  unfold Reclaimed
  rw [hgroup]

/-- In an ordered list the records of the last key are together: a new key has not been visited. -/
theorem key_ne_of_new (hord : Ordered Mvcc.Record.slot (done ++ [r]))
    (hnew : done.getLast?.map (·.key) ≠ some r.key) : ∀ s ∈ done, s.key ≠ r.key := by
  intro s hs hkey
  cases hlast : done.getLast? with
  | none => simp [getLast?_eq_none_iff.mp hlast] at hs
  | some last =>
    obtain ⟨before, rfl⟩ := getLast?_eq_some_iff.mp hlast
    obtain ⟨hdone, -, hr⟩ := pairwise_append.mp hord
    have hle := Mvcc.Record.key_le (hr last (by simp) r (mem_singleton_self _))
    have hge : r.key ≤ last.key := by
      rw [← hkey]
      rcases mem_append.mp hs with hs | hs
      · exact Mvcc.Record.key_le ((pairwise_append.mp hdone).2.2 s hs last (mem_singleton_self _))
      · rw [mem_singleton.mp hs]
    rw [hlast, Option.map_some] at hnew
    exact hnew (congrArg some (le_antisymm hle hge))

/-- The state once the key of the next record is the current one. -/
theorem GcState.Visited.enter (h : st.Visited floor deeper done)
    (hord : Ordered Mvcc.Record.slot (done ++ [r])) : (st.enter deeper r.key).curKey = some r.key ∧
      (st.enter deeper r.key).floorVersions = floorFlags (floorGroup floor done r.key) ∧
      ∀ key version, (key, version) ∈ (st.enter deeper r.key).toDrop ↔ r.key ≠ key ∧
        Reclaimed floor deeper done key version := by
  unfold GcState.enter
  split_ifs with hcur
  · refine ⟨hcur, h.versions r.key hcur, fun key version => ?_⟩
    rw [h.drop, hcur, ne_eq, Option.some.injEq]
  · have hnew := key_ne_of_new hord (h.cur ▸ hcur)
    have hgroup : floorGroup floor done r.key = [] := by
      rw [floorGroup, filter_eq_nil_iff]
      intro s hs
      simp [hnew s hs]
    refine ⟨rfl, by rw [hgroup]; rfl, fun key version => ?_⟩
    refine (h.flushKey (pairwise_append.mp hord).1 key version).trans ⟨fun hrec => ⟨?_, hrec⟩, And.right⟩
    rintro rfl
    obtain ⟨s, hs, -⟩ := hrec
    rw [hgroup] at hs
    cases hs

theorem GcState.Visited.visit (h : st.Visited floor deeper done) (hord : Ordered Mvcc.Record.slot (done ++ [r])) :
    (st.visit floor deeper r).Visited floor deeper (done ++ [r]) := by
  obtain ⟨hcur, hversions, hdrop⟩ := h.enter hord
  have hlast : ((done ++ [r]).getLast?).map (·.key) = some r.key := by simp
  have hdrop' : ∀ key version, (key, version) ∈ (st.enter deeper r.key).toDrop ↔
      some r.key ≠ some key ∧ Reclaimed floor deeper (done ++ [r]) key version := by
    intro key version
    rw [hdrop, ne_eq, ne_eq, Option.some.injEq]
    exact and_congr_right fun hne => (reclaimed_append_of_ne hne).symm
  unfold GcState.visit
  dsimp only
  split_ifs with hle
  all_goals
    refine ⟨hcur.trans hlast.symm, fun key hkey => ?_, fun key version => ?_⟩
    · obtain rfl : r.key = key := Option.some.inj (hcur.symm.trans hkey)
      rw [hversions, floorGroup_append]
      simp [floorFlags, floorGroup, hle]
    · exact (hdrop' key version).trans (by rw [hcur])

theorem mem_gcObsoleteRecords {merged : Store} : r ∈ (gcObsoleteRecords merged floor deeper).records ↔
      r ∈ merged.records ∧ ¬ Reclaimed floor deeper merged.records r.key r.version := by
  have hfold : ∀ (rest done : List Record) (st : GcState), st.Visited floor deeper done →
      Ordered Mvcc.Record.slot (done ++ rest) →
        (rest.foldl (GcState.visit floor deeper) st).Visited floor deeper (done ++ rest) := by
    intro rest
    induction rest with
    | nil =>
      intro done st h _
      rwa [append_nil]
    | cons r rest ih =>
      intro done st h hord
      have hsplit : done ++ r :: rest = done ++ [r] ++ rest := by simp
      rw [hsplit] at hord ⊢
      exact ih (done ++ [r]) _ (h.visit (pairwise_append.mp hord).1) hord
  have hstart : GcState.Visited floor deeper [] ⟨[], [], none⟩ := by
    refine ⟨rfl, by simp, fun key version => ?_⟩
    simp [Reclaimed, floorGroup]
  have hall := hfold merged.records [] _ hstart merged.ordered
  rw [nil_append] at hall
  simp only [gcObsoleteRecords, Mvcc.Store.filter, mem_filter, decide_eq_true_eq,
    hall.flushKey merged.ordered]

/-- Every key of one run is below every key of another. -/
def RunBelow (a b : List Record) : Prop := ∀ r ∈ a, ∀ s ∈ b, r.key < s.key

/-- What the cutting loop keeps: finished runs and the run in progress own ascending key ranges. -/
structure CutState.Good (st : CutState) : Prop where
  nonempty : ∀ run ∈ st.partitions, run ≠ []
  started : st.current = [] → st.partitions = []
  below : (st.partitions ++ [st.current]).Pairwise RunBelow

theorem CutState.Good.push {st : CutState} (h : st.Good) (target : Nat)
    (hord : Ordered Mvcc.Record.slot (st.current ++ [r])) : (st.push target r).Good := by
  obtain ⟨hparts, -, hcurrent⟩ := pairwise_append.mp h.below
  have hle : ∀ s ∈ st.current, s.key ≤ r.key := fun s hs =>
    Mvcc.Record.key_le ((pairwise_append.mp hord).2.2 s hs r (mem_singleton_self _))
  -- what stands below the current run stands below the new record
  have hbelow : ∀ run ∈ st.partitions, ∀ x ∈ run, x.key < r.key := by
    intro run hrun x hx
    cases hcur : st.current with
    | nil => simp [h.started hcur] at hrun
    | cons c rest =>
      have hc : c ∈ st.current := by simp [hcur]
      exact (hcurrent run hrun st.current (mem_singleton_self _) x hx c hc).trans_le (hle c hc)
  unfold CutState.push
  dsimp only
  split_ifs with hcut
  · obtain ⟨hnew, -, hne⟩ := hcut
    have hlt : ∀ s ∈ st.current, s.key < r.key := by
      intro s hs
      refine lt_of_le_of_ne (hle s hs) ?_
      refine key_ne_of_new hord ?_ s hs
      cases hlast : st.current.getLast? with
      | none => simp
      | some last => simpa [hlast] using hnew
    refine ⟨forall_mem_append.mpr ⟨h.nonempty, forall_mem_singleton.mpr hne⟩, by simp,
      pairwise_append.mpr ⟨h.below, pairwise_singleton _ _, fun run hrun fresh hfresh x hx s hs => ?_⟩⟩
    obtain rfl := mem_singleton.mp hfresh
    obtain rfl : s = r := by simpa using hs
    exact forall_mem_append.mpr ⟨hbelow, forall_mem_singleton.mpr hlt⟩ run hrun x hx
  · refine ⟨h.nonempty, by simp, ?_⟩
    refine pairwise_append.mpr ⟨hparts, pairwise_singleton _ _, ?_⟩
    intro run hrun current hcur x hx s hs
    obtain rfl := mem_singleton.mp hcur
    rcases mem_append.mp hs with hs | hs
    · exact hcurrent run hrun st.current (mem_singleton_self _) x hx s hs
    · rw [mem_singleton.mp hs]
      exact hbelow run hrun x hx

theorem CutState.push_current (st : CutState) (target : Nat) (r : Record) :
    (st.push target r).current = st.current ++ [r] ∨ (st.push target r).current = [r] := by
  unfold CutState.push
  dsimp only
  split_ifs
  · exact .inr rfl
  · exact .inl rfl

theorem cutRecords_runs {records : List Record} (hord : Ordered Mvcc.Record.slot records) (targetBytes : Nat) :
    (∀ run ∈ cutRecords records targetBytes, run ≠ []) ∧
      (cutRecords records targetBytes).Pairwise RunBelow := by
  have hfold : ∀ (rest : List Record) (st : CutState), st.Good →
      Ordered Mvcc.Record.slot (st.current ++ rest) →
      (rest.foldl (CutState.push (max targetBytes 1)) st).Good := by
    intro rest
    induction rest with
    | nil => exact fun st h _ => h
    | cons r rest ih =>
      intro st h hord
      have hsplit : st.current ++ r :: rest = st.current ++ [r] ++ rest := by simp
      rw [hsplit] at hord
      refine ih _ (h.push _ (pairwise_append.mp hord).1) ?_
      rcases st.push_current (max targetBytes 1) r with hcur | hcur
      · rw [hcur]
        exact hord
      · rw [hcur]
        rw [append_assoc] at hord
        exact (pairwise_append.mp hord).2.1
  have hall := hfold records ⟨[], [], 0⟩ ⟨by simp, by simp, pairwise_singleton _ _⟩ hord
  unfold cutRecords
  dsimp only
  split_ifs with hcur
  · exact ⟨hall.nonempty, (pairwise_append.mp hall.below).1⟩
  · exact ⟨forall_mem_append.mpr ⟨hall.nonempty, forall_mem_singleton.mpr hcur⟩, hall.below⟩

theorem partitionRecords_records (merged : Store) (targetBytes : Nat) :
    (partitionRecords merged targetBytes).map (·.records) = cutRecords merged.records targetBytes := by
  rw [partitionRecords, map_pmap, pmap_eq_map, map_id']

theorem mem_partitionRecords {merged : Store} {targetBytes : Nat} :
    (∃ run ∈ partitionRecords merged targetBytes, r ∈ run.records) ↔ r ∈ merged.records := by
  conv_rhs => rw [← flatten_cutRecords merged.records targetBytes, mem_flatten, ← partitionRecords_records]
  simp

theorem mergeInputs_sub (inputs : List SsTable) : (mergeInputs inputs).held ⊆ heldBy inputs := by
  rw [← Set.empty_union (heldBy inputs)]
  refine foldl_tables (I := fun S (merged : Store) => merged.held ⊆ S) ?_ Mvcc.Store.held_empty.subset
  intro t _ S merged hS r hr
  rw [t.fullScan_eq, Mvcc.Store.held_foldl_writes] at hr
  exact (Mvcc.mem_of_mem_writes hr).imp_left (hS ·)

theorem held_mergeInputs {inputs : List SsTable} (h : Mvcc.Functional (heldBy inputs)) :
    (mergeInputs inputs).held = heldBy inputs := by
  rw [← Set.empty_union (heldBy inputs)]
  refine (foldl_tables (I := fun S (merged : Store) => S ⊆ heldBy inputs ∧ merged.held = S) ?_
    ⟨Set.empty_subset _, Mvcc.Store.held_empty⟩).2
  rintro t ht S merged ⟨hS, rfl⟩
  have hsub : t.records.held ⊆ heldBy inputs := fun r hr => ⟨t, ht, hr⟩
  refine ⟨Set.union_subset hS hsub, ?_⟩
  rw [t.fullScan_eq]
  exact Mvcc.Store.held_foldl_insert h hS hsub

end AnimusDb.Lsm
