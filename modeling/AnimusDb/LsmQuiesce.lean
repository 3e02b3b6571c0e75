import AnimusDb.LsmCompact
import Mathlib.Algebra.BigOperators.Ring.List
import Mathlib.Algebra.Order.BigOperators.Group.List

/-! Compaction comes to rest: a leveled compaction takes the records of its source level one level deeper, a
merge within level 0 leaves fewer tables there, and a level whose budget has a table for every record sends
nothing further down. -/

open List

namespace AnimusDb.Lsm

/-- The options, with those that say when to compact and when to stall writes. -/
structure LsmSchedule extends LsmOptions where
  levelFanout : Nat
  l0SlowdownFactor : Nat
  l0StopFactor : Nat
  l0SlowdownWriteRate : Nat
  l0MinWriteRate : Nat
  maintenanceFailureLimit : Nat

inductive OptionsError where
  | invalidLevelFanout (levelFanout : Nat)
  | invalidStallOptions (reason : String)
  deriving DecidableEq

def compactionL0BypassFactor : Nat := 2

def l1TableBudget : Nat := 4

variable (fmt : TableFormat) (opts : LsmSchedule)

def LsmSchedule.validateStall : Except OptionsError Unit :=
  if opts.maintenanceFailureLimit =
    0 then .error (.invalidStallOptions "maintenance_failure_limit must be >= 1")
  else if opts.l0SlowdownFactor = 0 ∧ opts.l0StopFactor = 0 then .ok ()
  else if opts.compactionTrigger < 1 then
    .error (.invalidStallOptions "compaction_trigger must be >= 1 when the L0 stall is on")
  else if opts.l0SlowdownFactor ≤ compactionL0BypassFactor then
    .error (.invalidStallOptions "l0_slowdown_factor must exceed the compaction bypass factor (2)")
  else if opts.l0StopFactor ≤ opts.l0SlowdownFactor then
    .error (.invalidStallOptions "l0_stop_factor must exceed l0_slowdown_factor")
  else if opts.l0MinWriteRate = 0 ∨ opts.l0SlowdownWriteRate < opts.l0MinWriteRate then
    .error (.invalidStallOptions "need 0 < l0_min_write_rate <= l0_slowdown_write_rate")
  else .ok ()

def LsmSchedule.validate : Except OptionsError Unit :=
  if opts.levelFanout ≤ 1 then .error (.invalidLevelFanout opts.levelFanout) else opts.validateStall

/-- The tables a level may hold; the power wraps at 64 bits. -/
def levelTableBudget (level : Nat) :
    Nat := min (l1TableBudget * (opts.levelFanout ^ (level - 1) % 2 ^ 64)) u64Max

/-- Bytes of the level-1 tables that a compaction of level 0 would rewrite. -/
def l1RewriteBytes (tables : List SsTable) : Nat :=
  match keyBounds fmt (tables.filter fun t => t.level = 0) with
  | none => 0
  | some (lo, hi) =>
    ((tables.filter fun t => t.level = 1 ∧ rangesOverlap (t.meta fmt) lo hi).map fun t =>
      (t.meta fmt).fileSize).sum % 2 ^ 64

/-- The next compaction due: level 0 once it has enough tables, else the shallowest level over its budget. -/
def nextCompactionPlan (tables : List SsTable) : Option CompactionPlan :=
  let l0 := tables.filter fun t => t.level = 0
  if opts.compactionTrigger ≤ l0.length then
    let l0Bytes := (l0.map fun t => (t.meta fmt).fileSize).sum % 2 ^ 64
    if l0.length < 2 ∨ l1RewriteBytes fmt tables / max opts.levelFanout 1 ≤ l0Bytes then some ⟨0, false⟩
    else some ⟨0, true⟩
  else
    let levels := ((tables.map (·.level)).filter (1 ≤ ·)).insertionSort (· ≤ ·)
    (levels.find? fun level => levelTableBudget opts level < tables.countP (·.level = level)).map (⟨·, false⟩)

/-- Run compactions until none is due; `none` if they do not come to rest within the fuel. -/
def Inner.compactNow : Nat → Inner → Option Inner
  | 0, inner => if (nextCompactionPlan fmt opts inner.manifest.tables).isNone then some inner else none
  | fuel + 1, inner =>
    match nextCompactionPlan fmt opts inner.manifest.tables with
    | none => some inner
    | some plan => compactNow fuel (inner.runCompaction fmt opts.toLsmOptions plan)

variable {α : Type}

theorem sum_le_of_subperm {a b : List α} (h : a <+~ b) (f : α → Nat) : (a.map f).sum ≤ (b.map f).sum := by
  obtain ⟨c, hperm, hsub⟩ := h
  rw [← (hperm.map f).sum_eq]
  exact (hsub.map f).sum_le_sum fun _ _ => Nat.zero_le _

theorem filter_append_subperm (l : List α) {p q : α → Bool} (h : ∀ a, q a = true → p a = false) :
    l.filter p ++ l.filter q <+~ l := by
  have hq : l.filter q <+ l.filter fun a => !p a := monotone_filter_right l fun a ha => by simp [h a ha]
  exact (hq.append_left _).subperm.trans (filter_append_perm p l).subperm

variable {fmt} {opts : LsmOptions} {plan : CompactionPlan} {tables : List SsTable}

/-- A table counts for its records, an empty one for one. -/
def SsTable.weight (t : SsTable) : Nat := max 1 t.records.records.length

def weight (tables : List SsTable) : Nat := (tables.map SsTable.weight).sum

/-- What the tables weigh, each record by the levels below it. -/
def potential (depth : Nat) (tables : List SsTable) :
    Nat := (tables.map fun t => t.weight * (depth - t.level)).sum

def l0Count (tables : List SsTable) : Nat := tables.countP (·.level = 0)

def tableBytes (tables : List SsTable) : Nat := (tables.map fun t => memtableBytesOf t.records).sum

section Outputs

variable (opts) (plan) (inputs : List SsTable) (maxVersion : Version) (held : List Version)
  (deeper : List (Key × Key)) (base : Nat)

theorem outputs_records : (compactionOutputs opts plan inputs maxVersion held deeper base).map (·.records.records) =
    cutRecords (gcObsoleteRecords (mergeInputs inputs) (gcFloor opts maxVersion held) deeper).records
      (if plan.l0Merge then u64Max else opts.targetTableBytes) := by
  rw [← partitionRecords_records]
  exact ext_getElem (by simp [compactionOutputs]) (by simp [compactionOutputs])

theorem outputs_subperm : (compactionOutputs opts plan inputs maxVersion held deeper base).flatMap
    (·.records.records) <+~ inputs.flatMap (·.records.records) := by
  rw [flatMap_def, outputs_records, flatten_cutRecords]
  refine subperm_of_subset ((gcObsoleteRecords _ _ _).ordered.imp fun h heq => (heq ▸ h).false) fun r hr => ?_
  obtain ⟨t, ht, hr⟩ := mergeInputs_sub inputs (mem_gcObsoleteRecords.mp hr).1
  exact mem_flatMap.mpr ⟨t, ht, hr⟩

theorem cutRecords_one {records : List Record} (targetBytes : Nat)
    (h : (records.map recordBytes).sum < targetBytes) : (cutRecords records targetBytes).length ≤ 1 := by
  have hfold : ∀ (rest : List Record) (st : CutState), st.partitions = [] →
    st.currentBytes + (rest.map recordBytes).sum < targetBytes →
      (rest.foldl (CutState.push (max targetBytes 1)) st).partitions = [] := by
    intro rest
    induction rest with
    | nil => exact fun st hst _ => hst
    | cons r rest ih =>
      intro st hst hlt
      rw [map_cons, sum_cons] at hlt
      refine ih _ ?_ ?_ <;> unfold CutState.push <;> dsimp only <;> rw [if_neg (by omega)]
      · exact hst
      · omega
  have hnil := hfold records ⟨[], [], 0⟩ rfl (by simpa using h)
  unfold cutRecords
  dsimp only
  rw [hnil]
  split_ifs <;> simp

/-- The tables written for some others hold no more, and a merge within level 0 writes one. -/
structure Shrinks (plan : CompactionPlan) (inputs outputs : List SsTable) : Prop where
  weight : weight outputs ≤ weight inputs
  bytes : tableBytes outputs ≤ tableBytes inputs
  level : ∀ t ∈ outputs, t.level = plan.targetLevel
  one : plan.l0Merge = true → tableBytes inputs < u64Max → outputs.length ≤ 1

theorem shrinks_outputs : Shrinks plan inputs
    (compactionOutputs opts plan inputs maxVersion held deeper base) := by
  have hsub := outputs_subperm opts plan inputs maxVersion held deeper base
  have hrecords := outputs_records opts plan inputs maxVersion held deeper base
  have hbytes : ∀ l : List SsTable, tableBytes l = ((l.flatMap (·.records.records)).map recordBytes).sum := by
    intro l
    rw [map_flatMap, flatMap_def, sum_flatten, map_map]
    rfl
  have hle := sum_le_of_subperm hsub recordBytes
  rw [← hbytes, ← hbytes] at hle
  refine ⟨?_, hle, fun t ht => ?_, fun hmerge hlt => ?_⟩
  · have hlen := hsub.length_le
    rw [length_flatMap, length_flatMap] at hlen
    refine (sum_le_sum fun t ht => ?_).trans (hlen.trans (sum_le_sum fun t _ => le_max_right _ _))
    have hne := (cutRecords_runs (gcObsoleteRecords _ _ _).ordered _).1 _ (hrecords ▸ mem_map_of_mem ht)
    exact max_le (length_pos_of_ne_nil hne) le_rfl
  · obtain ⟨i, hi, rfl⟩ := mem_mapIdx.mp ht
    rfl
  · have hone := cutRecords_one u64Max ((hbytes _ ▸ hle).trans_lt hlt)
    rw [flatMap_def, hrecords, flatten_cutRecords] at hone
    rwa [← length_map (·.records.records), hrecords, if_pos hmerge]

end Outputs

theorem inputs_leveled (fmt : TableFormat) (opts : LsmOptions) (level : Nat) (tables : List SsTable) :
    ∃ p : SsTable → Bool, (∀ t, p t = true → t.level = level + 1) ∧
      compactionInputs fmt opts ⟨level, false⟩ tables = (tables.filter fun t => t.level = level) ++
      tables.filter p := by
  rw [compactionInputs, if_neg Bool.false_ne_true]
  dsimp only
  split
  next slo shi _ => exact ⟨_, fun t ht => (of_decide_eq_true ht).1, rfl⟩
  next => exact ⟨fun _ => false, nofun, by simp⟩

/-- The inputs and the tables a compaction leaves alone are different live tables. -/
theorem inputs_subperm (fmt : TableFormat) (opts : LsmOptions) (plan : CompactionPlan) (tables : List SsTable) :
    (tables.filter fun t => t.seq ∉ (compactionInputs fmt opts plan tables).map (·.seq)) ++
      compactionInputs fmt opts plan tables <+~ tables := by
  have hinputs : compactionInputs fmt opts plan tables <+~ tables := by
    obtain ⟨level, _ | _⟩ := plan
    · obtain ⟨p, hp, heq⟩ := inputs_leveled fmt opts level tables
      rw [heq]
      refine filter_append_subperm tables fun t ht => ?_
      simp [hp t ht]
    · exact filter_sublist.subperm
  have hself := hinputs.filter fun t => decide (t.seq ∈ (compactionInputs fmt opts plan tables).map (·.seq))
  rw [filter_eq_self.mpr fun t ht => decide_eq_true (mem_map_of_mem ht)] at hself
  refine ((subperm_append_left _).mpr hself).trans ?_
  exact filter_append_subperm tables fun t ht => by simpa using ht

theorem two_le_inputs (fmt : TableFormat) (opts : LsmOptions) (h : 2 ≤ l0Count tables) :
    2 ≤ (compactionInputs fmt opts ⟨0, true⟩ tables).length := by
  have hinputs : (compactionInputs fmt opts ⟨0, true⟩ tables).length =
    (((tables.map (SsTable.meta fmt)).filter fun m =>
      m.level = 0).filter fun m => m.seq ∈ l0MergeGroup opts (tables.map (SsTable.meta fmt))).length := by
    simp [compactionInputs, filter_map, filter_filter, Function.comp_def, SsTable.meta, Bool.and_comm]
  have hl0 : l0Count tables = ((tables.map (SsTable.meta fmt)).filter fun m => m.level = 0).length := by
    rw [← countP_eq_length_filter, countP_map]
    rfl
  rw [hinputs, l0MergeGroup]
  dsimp only
  generalize (tables.map (SsTable.meta fmt)).filter _ = l0 at hl0 ⊢
  rw [if_neg (by omega)]
  have hsub := (take_sublist (min (max (l0.length + 2 - opts.compactionTrigger) 2) l0.length) _).subperm.trans
    (perm_insertionSort (fun a b : SsTableMeta => toLex (a.fileSize, a.seq) ≤ toLex (b.fileSize, b.seq)) l0).subperm
  have htwo : 2 ≤ ((l0.insertionSort fun a b => toLex (a.fileSize, a.seq) ≤ toLex (b.fileSize, b.seq)).take
      (min (max (l0.length + 2 - opts.compactionTrigger) 2) l0.length)).length := by
    rw [length_take, length_insertionSort]
    omega
  generalize take _ _ = chosen at hsub htwo ⊢
  generalize growGroup _ _ = grown
  have hchosen := (hsub.filter fun m => decide (m.seq ∈ (chosen ++ grown).map (·.seq))).length_le
  rw [filter_eq_self.mpr fun m hm => decide_eq_true (mem_map_of_mem (mem_append_left _ hm))] at hchosen
  exact htwo.trans hchosen

theorem Inner.runCompaction_parts (inner : Inner)
    (hne : compactionInputs fmt opts plan inner.manifest.tables ≠ []) :
    ∃ kept outputs, (inner.runCompaction fmt opts plan).manifest.tables ~ kept ++ outputs ∧
      kept ++ compactionInputs fmt opts plan inner.manifest.tables <+~ inner.manifest.tables ∧
      Shrinks plan (compactionInputs fmt opts plan inner.manifest.tables) outputs := by
  unfold runCompaction
  dsimp only
  rw [if_neg (by simpa using hne)]
  exact ⟨_, _, perm_insertionSort _ _, inputs_subperm fmt opts plan inner.manifest.tables,
    shrinks_outputs opts plan _ _ _ _ _⟩

variable {depth budget : Nat}

/-- No table lies below the depth, and a budget and the address space hold them all. -/
structure Settling (depth budget : Nat) (tables : List SsTable) : Prop where
  levels : ∀ t ∈ tables, t.level ≤ depth
  weight : weight tables ≤ budget
  bytes : tableBytes tables < u64Max

theorem length_le_weight (tables : List SsTable) : tables.length ≤ weight tables := by
  have hle := length_le_sum_of_one_le (tables.map SsTable.weight) (by simp [SsTable.weight])
  rwa [length_map] at hle

theorem Settling.l0Count_le (h : Settling depth budget tables) : l0Count tables ≤ budget :=
  countP_le_length.trans ((length_le_weight tables).trans h.weight)

theorem potential_level {level : Nat} (h : ∀ t ∈ tables, t.level = level) :
    potential depth tables = weight tables * (depth - level) := by
  rw [weight, ← sum_map_mul_right]
  exact congrArg sum (map_congr_left fun t ht => by rw [h t ht])

/-- The records of a source level gain a level, those of the target level keep theirs. -/
theorem potential_leveled {source rest outputs : List SsTable} {level : Nat}
    (hsource : ∀ t ∈ source, t.level = level)
    (hrest : ∀ t ∈ rest, t.level = level + 1) (houtputs : ∀ t ∈ outputs, t.level = level + 1) (hne : source ≠ [])
    (hle : weight outputs ≤ weight (source ++ rest)) (hlevel : level < depth) :
    potential depth outputs + 1 ≤ potential depth (source ++ rest) := by
  obtain ⟨below, rfl⟩ := Nat.exists_eq_add_of_lt hlevel
  have hone : 1 ≤ weight source := (length_pos_of_ne_nil hne).trans_le (length_le_weight source)
  have hmul := Nat.mul_le_mul_right below hle
  have hweight : weight (source ++ rest) = weight source + weight rest := by simp [weight]
  have hparts : potential (level + below + 1) (source ++ rest) =
      potential (level + below + 1) source + potential (level + below + 1) rest := by simp [potential]
  have hdown : level + below + 1 - level = below + 1 := by omega
  have hstay : level + below + 1 - (level + 1) = below := by omega
  rw [hparts, potential_level hsource, potential_level hrest, potential_level houtputs, hdown, hstay, Nat.mul_succ]
  rw [hweight, Nat.add_mul] at hmul
  omega

variable {new kept inputs outputs : List SsTable} (hperm : new ~ kept ++ outputs)
  (hsub : kept ++ inputs <+~ tables)

include hperm hsub in
theorem sum_parts (f : SsTable → Nat) (gain : Nat) (hle : (outputs.map f).sum + gain ≤ (inputs.map f).sum) :
    (new.map f).sum + gain ≤ (tables.map f).sum := by
  have hparts := sum_le_of_subperm hsub f
  rw [(hperm.map f).sum_eq]
  simp only [map_append, sum_append] at hparts ⊢
  omega

include hperm hsub in
theorem Settling.parts (h : Settling depth budget tables) (hshrinks : Shrinks plan inputs outputs)
    (htarget : plan.targetLevel ≤ depth) : Settling depth budget new := by
  refine ⟨fun t ht => ?_, (sum_parts hperm hsub _ 0 hshrinks.weight).trans h.weight,
    (sum_parts hperm hsub _ 0 hshrinks.bytes).trans_lt h.bytes⟩
  rcases mem_append.mp (hperm.subset ht) with ht | ht
  · exact h.levels t (hsub.subset (mem_append_left _ ht))
  · exact (hshrinks.level t ht).trans_le htarget

variable {opts : LsmSchedule}

/-- A plan takes a level above the depth that has a table, or merges within level 0. -/
theorem nextCompactionPlan_cases (htrigger : 1 ≤ opts.compactionTrigger) (hdepth : 1 ≤ depth)
    (h : Settling depth (levelTableBudget opts depth) tables)
    (hplan : nextCompactionPlan fmt opts tables = some plan) :
    (plan = ⟨0, true⟩ ∧ 2 ≤ l0Count tables) ∨ ∃ level < depth, plan = ⟨level, false⟩ ∧
      ∃ t ∈ tables, t.level = level := by
  unfold nextCompactionPlan at hplan
  dsimp only at hplan
  split_ifs at hplan with hl0 hleveled
  · cases hplan
    obtain ⟨t, ht⟩ := exists_mem_of_length_pos (htrigger.trans hl0)
    rw [mem_filter, decide_eq_true_eq] at ht
    exact .inr ⟨0, hdepth, rfl, t, ht⟩
  · cases hplan
    rw [l0Count, countP_eq_length_filter]
    exact .inl ⟨rfl, by omega⟩
  · obtain ⟨level, hfind, rfl⟩ := Option.map_eq_some_iff.mp hplan
    have hmem := mem_of_find?_eq_some hfind
    rw [mem_insertionSort, mem_filter] at hmem
    obtain ⟨t, ht, rfl⟩ := mem_map.mp hmem.1
    refine .inr ⟨t.level, lt_of_le_of_ne (h.levels t ht) fun heq => ?_, rfl, t, ht, rfl⟩
    have hover : levelTableBudget opts t.level < tables.countP (·.level = t.level) := by
      simpa using find?_some hfind
    rw [heq] at hover
    exact hover.not_ge (countP_le_length.trans ((length_le_weight tables).trans h.weight))

/-- One compaction lowers the potential, or keeps it and leaves fewer tables in level 0. -/
theorem Inner.compact_lowers {inner : Inner} (htrigger : 1 ≤ opts.compactionTrigger) (hdepth : 1 ≤ depth)
    (h : Settling depth (levelTableBudget opts depth) inner.manifest.tables)
    (hplan : nextCompactionPlan fmt opts inner.manifest.tables = some plan) :
    let tables := (inner.runCompaction fmt opts.toLsmOptions plan).manifest.tables
    Settling depth (levelTableBudget opts depth) tables ∧
      (potential depth tables < potential depth inner.manifest.tables ∨
      potential depth tables ≤ potential depth inner.manifest.tables ∧
        l0Count tables < l0Count inner.manifest.tables) := by
  rcases nextCompactionPlan_cases htrigger hdepth h hplan with ⟨rfl, htwo⟩ | ⟨level, hlevel, rfl, t, ht, rfl⟩
  · have hinputs := two_le_inputs fmt opts.toLsmOptions htwo
    obtain ⟨kept, outputs, hperm, hsub, hshrinks⟩ :=
      inner.runCompaction_parts (ne_nil_of_length_pos (zero_lt_two.trans_le hinputs))
    have hzero : ∀ t ∈ compactionInputs fmt opts.toLsmOptions ⟨0, true⟩ inner.manifest.tables, t.level =
      0 := fun t ht =>
      (of_decide_eq_true (mem_filter.mp ht).2).1
    refine ⟨h.parts hperm hsub hshrinks (Nat.zero_le _), .inr ⟨sum_parts hperm hsub _ 0 ?_, ?_⟩⟩
    · exact (potential_level hshrinks.level).trans_le
        ((Nat.mul_le_mul_right _ hshrinks.weight).trans_eq (potential_level hzero).symm)
    · have hcount := hsub.countP_le (·.level = 0)
      have hall := countP_eq_length.mpr fun t ht => decide_eq_true (hzero t ht)
      have hone := hshrinks.one rfl (((sum_le_of_subperm (sublist_append_right kept _).subperm _).trans
        (sum_le_of_subperm hsub _)).trans_lt h.bytes)
      have hfew : outputs.countP (·.level = 0) ≤ 1 := countP_le_length.trans hone
      simp only [l0Count, hperm.countP_eq, countP_append] at hcount ⊢
      omega
  · obtain ⟨p, hp, heq⟩ := inputs_leveled fmt opts.toLsmOptions t.level inner.manifest.tables
    have hsource : t ∈ inner.manifest.tables.filter fun u => u.level = t.level := by simp [ht]
    have hne : compactionInputs fmt opts.toLsmOptions ⟨t.level, false⟩ inner.manifest.tables ≠ [] :=
      heq ▸ append_ne_nil_of_left_ne_nil (ne_nil_of_mem hsource) _
    obtain ⟨kept, outputs, hperm, hsub, hshrinks⟩ := inner.runCompaction_parts hne
    refine ⟨h.parts hperm hsub hshrinks hlevel, .inl (sum_parts hperm hsub _ 1 ?_)⟩
    rw [heq]
    exact potential_leveled (fun u hu => of_decide_eq_true (mem_filter.mp hu).2) (fun u hu =>
      hp u (mem_filter.mp hu).2) hshrinks.level (ne_nil_of_mem hsource) (heq ▸ hshrinks.weight) hlevel

theorem Inner.compactNow_settles {inner : Inner} (htrigger : 1 ≤ opts.compactionTrigger) (hdepth : 1 ≤ depth)
    (h : Settling depth (levelTableBudget opts depth) inner.manifest.tables) : ∃ fuel inner',
      inner.compactNow fmt opts fuel = some inner' ∧
      nextCompactionPlan fmt opts inner'.manifest.tables = none := by
  induction hμ : potential depth inner.manifest.tables * (levelTableBudget opts depth + 1) + l0Count
    inner.manifest.tables using Nat.strong_induction_on generalizing inner with
  | _ μ ih =>
    cases hplan : nextCompactionPlan fmt opts inner.manifest.tables with
    | none => exact ⟨0, inner, by simp [Inner.compactNow, hplan], hplan⟩
    | some plan =>
      obtain ⟨hnext, hlower⟩ := inner.compact_lowers htrigger hdepth h hplan
      have hl0 := hnext.l0Count_le
      obtain ⟨fuel, inner', hrun, hrest⟩ := ih _ (by
        rw [← hμ]
        rcases hlower with hlt | ⟨hle, hlt⟩
        · have hmul := Nat.mul_le_mul_right (levelTableBudget opts depth + 1) hlt
          rw [Nat.succ_mul] at hmul
          omega
        · have hmul := Nat.mul_le_mul_right (levelTableBudget opts depth + 1) hle
          omega) hnext rfl
      exact ⟨fuel + 1, inner', by simpa only [Inner.compactNow, hplan] using hrun, hrest⟩

/-- A flushed table with one record. -/
def oneRecord (seq : Nat) (key : UInt8) :
    SsTable := ⟨seq, 0, Mvcc.Store.empty.insert ⟨[key], seq, some [key]⟩⟩

def threeFlushed : Inner := ⟨.empty, 0, ⟨3, [oneRecord 1 1, oneRecord 2 2, oneRecord 3 1], 3, []⟩, 3, []⟩

def countedFormat : TableFormat := ⟨fun _ => (64, 3), List.length⟩

def eagerOptions (trigger fanout : Nat) : LsmSchedule := ⟨⟨trigger, 64, 1⟩, fanout, 0, 0, 0, 0, 1⟩

end AnimusDb.Lsm
