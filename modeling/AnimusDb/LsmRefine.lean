import AnimusDb.LsmLayers
import Mathlib.Data.List.TakeWhile

/-! What the tree-structured engine keeps over writes, flushes and compactions: its tables are layered under
a newer memtable, and a compaction hides nothing from reads above its floor. -/

open OrderedList (Ordered)
open Mvcc (Agrees Functional)
open List

namespace AnimusDb.Lsm

open Lsm.Inner

/-- A logged merge as the record it writes. -/
def MergeRec.toRecord (rec : MergeRec) : Record := ⟨rec.key, rec.version, rec.value⟩

variable (version : Version) (inner : Inner)

def tombstones (keys : List Key) : List Record := keys.map fun key => ⟨key, version, none⟩

def BatchOp.slots : BatchOp → List Record
  | .put key value => [⟨key, version, some value⟩]
  | .delete key => [⟨key, version, none⟩]
  | .deleteKeys keys => tombstones version keys

/-- The slots a logged record writes, in order. -/
def WalRecord.slots : WalRecord → List Record
  | .put key value version => [⟨key, version, some value⟩]
  | .delete key version => [⟨key, version, none⟩]
  | .deleteRange _ _ keys version => tombstones version keys
  | .batch version ops => ops.flatMap (BatchOp.slots version)
  | .mergeBatch ops => ops.map MergeRec.toRecord

/-- The engine after writing slots: only the memtable and its size differ. -/
structure Inner.Wrote (inner : Inner) (slots : List Record) (inner' : Inner) : Prop where
  memtable : inner'.memtable = slots.foldl Mvcc.Store.insert inner.memtable
  manifest : inner'.manifest = inner.manifest
  allocSeq : inner'.allocSeq = inner.allocSeq
  heldSnapshots : inner'.heldSnapshots = inner.heldSnapshots

theorem Inner.Wrote.trans {a b c : Inner} {slots others : List Record} (h : a.Wrote slots b)
    (h' : b.Wrote others c) : a.Wrote (slots ++ others) c :=
  ⟨by rw [foldl_append, ← h.memtable, h'.memtable], h'.manifest.trans h.manifest,
    h'.allocSeq.trans h.allocSeq, h'.heldSnapshots.trans h.heldSnapshots⟩

theorem Inner.wrote_foldl {α : Type} {f : Inner → α → Inner} {slots : α → List Record}
    (hf : ∀ (inner : Inner) (a : α), inner.Wrote (slots a) (f inner a)) (items : List α) (inner : Inner) :
    inner.Wrote (items.flatMap slots) (items.foldl f inner) := by
  induction items generalizing inner with
  | nil => exact ⟨rfl, rfl, rfl, rfl⟩
  | cons a items ih => exact (hf inner a).trans (ih (f inner a))

theorem Inner.wrote_applyDelete (key : Key) :
    inner.Wrote [⟨key, version, none⟩] (inner.applyDelete version key) := ⟨rfl, rfl, rfl, rfl⟩

theorem Inner.wrote_tombstones (keys : List Key) (inner : Inner) :
    inner.Wrote (tombstones version keys) (keys.foldl (applyDelete · version) inner) := by
  have h := wrote_foldl (wrote_applyDelete version) keys inner
  rwa [← map_eq_flatMap] at h

theorem Inner.wrote_applyBatchOp (op : BatchOp) :
    inner.Wrote (op.slots version) (inner.applyBatchOp version op) := by
  cases op with
  | put key value | delete key => exact ⟨rfl, rfl, rfl, rfl⟩
  | deleteKeys keys => exact wrote_tombstones version keys inner

theorem Inner.wrote_applyMergeRec (rec : MergeRec) :
    inner.Wrote [rec.toRecord] (inner.applyMergeRec rec) := by
  unfold applyMergeRec MergeRec.toRecord
  cases rec.value with
  | none | some value => exact ⟨rfl, rfl, rfl, rfl⟩

theorem Inner.wrote_applyRecord (record : WalRecord) :
    inner.Wrote record.slots (inner.applyRecord record) := by
  cases record with
  | put key value version | delete key version => exact ⟨rfl, rfl, rfl, rfl⟩
  | deleteRange start stop keys version => exact wrote_tombstones version keys inner
  | batch version ops => exact wrote_foldl (wrote_applyBatchOp version) ops inner
  | mergeBatch ops =>
    have h := wrote_foldl wrote_applyMergeRec ops inner
    rwa [← map_eq_flatMap] at h

variable {r : Record}

/-- The tables are layered under a memtable that is newer than they are, a slot has one record, and versions
have 64 bits. -/
structure Inner.Ok (inner : Inner) : Prop where
  layered : Layered inner.manifest.tables
  alloc : ∀ t ∈ inner.manifest.tables, t.seq ≤ inner.allocSeq
  newer : ∀ t ∈ inner.manifest.tables, Newer inner.memtable t.records
  bounded : ∀ r ∈ inner.held, r.version ≤ inner.manifest.maxVersion
  functional : Functional inner.held
  top : inner.manifest.maxVersion ≤ versionMax

theorem Inner.Ok.withinTop {inner : Inner} (h : inner.Ok) : Bounded inner.held :=
  fun r hr => (h.bounded r hr).trans h.top

theorem Inner.ok_empty : empty.Ok := by
  have hheld : empty.held = ∅ := by simp [empty, held]
  exact ⟨⟨List.Pairwise.nil, by simp [empty], by simp [empty], by simp [empty]⟩, by simp [empty], by simp [empty],
    by simp [hheld], by simp [hheld, Functional], Nat.zero_le _⟩

variable {inner}

variable {fmt : TableFormat} {opts : LsmOptions} {plan : CompactionPlan}

/-- The version from which on no compaction so far has reclaimed anything. -/
def Inner.compactionHorizon (fmt : TableFormat) (opts : LsmOptions) (plan : CompactionPlan) (inner : Inner)
    (horizon : Version) : Version :=
  if (compactionInputs fmt opts plan inner.manifest.tables).isEmpty then horizon
  else max horizon (inner.compactionFloor opts + 1)

theorem Inner.compactionFloor_le (opts : LsmOptions) (inner : Inner) :
    inner.compactionFloor opts ≤ inner.manifest.maxVersion := by
  unfold compactionFloor gcFloor
  cases inner.heldSnapshots.min? with
  | none => exact Nat.sub_le _ _
  | some lowest => exact (min_le_left _ _).trans (Nat.sub_le _ _)

theorem Inner.runCompaction_none (h : compactionInputs fmt opts plan inner.manifest.tables = []) :
    inner.runCompaction fmt opts plan = inner := by
  unfold runCompaction
  rw [h]
  rfl

theorem Inner.runCompaction_rest (fmt : TableFormat) (opts : LsmOptions) (plan : CompactionPlan)
    (inner : Inner) : (inner.runCompaction fmt opts plan).memtable = inner.memtable ∧
      (inner.runCompaction fmt opts plan).manifest.maxVersion = inner.manifest.maxVersion ∧
      (inner.runCompaction fmt opts plan).heldSnapshots = inner.heldSnapshots := by
  unfold runCompaction
  dsimp only
  split_ifs <;> exact ⟨rfl, rfl, rfl⟩

/-- A slot of the inputs that the compaction reclaims. -/
def Inner.Reclaims (fmt : TableFormat) (opts : LsmOptions) (plan : CompactionPlan) (inner : Inner) (key : Key)
    (version : Version) : Prop :=
  let inputs := compactionInputs fmt opts plan inner.manifest.tables
  Reclaimed (inner.compactionFloor opts) (deeperRanges fmt plan inner.manifest.tables (inputs.map (·.seq)))
    (mergeInputs inputs).records key version

theorem Inner.compactionOutputs_held (hfun : Functional inner.held) :
    r ∈ heldBy (inner.compactionOutputs fmt opts plan) ↔
      r ∈ heldBy (compactionInputs fmt opts plan inner.manifest.tables) ∧
      ¬ inner.Reclaims fmt opts plan r.key r.version := by
  have hinputs : Functional (heldBy (compactionInputs fmt opts plan inner.manifest.tables)) :=
    hfun.subset fun r ⟨t, ht, hr⟩ => .inr ⟨t, compactionInputs_subset ht, hr⟩
  rw [compactionOutputs, heldBy_outputs, ← held_mergeInputs hinputs]
  exact mem_gcObsoleteRecords

theorem Inner.mem_runCompaction (h : inner.Ok)
    (hinputs : compactionInputs fmt opts plan inner.manifest.tables ≠ []) :
    r ∈ (inner.runCompaction fmt opts plan).held ↔ r ∈ inner.memtable.held ∨
      r ∈ heldBy (survivors fmt opts plan inner.manifest.tables) ∨
      r ∈ heldBy (inner.compactionOutputs fmt opts plan) := by
  have htables : (inner.runCompaction fmt opts plan).manifest.tables = _ :=
    runCompaction_tables h.layered h.alloc hinputs
  rw [held, (inner.runCompaction_rest fmt opts plan).1, htables]
  simp only [heldBy, mem_append, or_and_right, exists_or, Set.mem_union, Set.mem_ofPred_eq]

theorem Inner.runCompaction_sub (h : inner.Ok) : (inner.runCompaction fmt opts plan).held ⊆ inner.held := by
  by_cases hinputs : compactionInputs fmt opts plan inner.manifest.tables = []
  · rw [runCompaction_none hinputs]
  intro r hr
  rcases (mem_runCompaction h hinputs).mp hr with hr | ⟨t, ht, hr⟩ | hr
  · exact .inl hr
  · exact .inr ⟨t, ((mem_survivors h.layered).mp ht).1, hr⟩
  · obtain ⟨t, ht, hr⟩ := ((compactionOutputs_held h.functional).mp hr).1
    exact .inr ⟨t, compactionInputs_subset ht, hr⟩

theorem Inner.Ok.runCompaction (h : inner.Ok) : (inner.runCompaction fmt opts plan).Ok := by
  by_cases hinputs : compactionInputs fmt opts plan inner.manifest.tables = []
  · rw [Inner.runCompaction_none hinputs]
    exact h
  have htables : (inner.runCompaction fmt opts plan).manifest.tables = _ :=
    Inner.runCompaction_tables h.layered h.alloc hinputs
  have hlayered : Layered (inner.runCompaction fmt opts plan).manifest.tables := by
    rw [htables]
    exact h.layered.compacted h.alloc (h.functional.subset fun r hr => .inr hr)
  obtain ⟨hmem, hmax, -⟩ := inner.runCompaction_rest fmt opts plan
  refine ⟨hlayered, ?_, ?_, ?_, h.functional.subset (Inner.runCompaction_sub h), hmax ▸ h.top⟩
  · have halloc : (inner.runCompaction fmt opts plan).allocSeq =
        inner.allocSeq + (inner.compactionOutputs fmt opts plan).length := by
      unfold Inner.runCompaction
      dsimp only
      rw [if_neg (by simpa using hinputs)]
      rfl
    intro t ht
    rw [htables] at ht
    rw [halloc]
    rcases mem_append.mp ht with ht | ht
    · exact (h.alloc t ((mem_survivors h.layered).mp ht).1).trans (Nat.le_add_right _ _)
    · exact (outputs_level ht).2.2
  · intro t ht r hr s hs hkey
    rw [hmem] at hr
    rw [htables] at ht
    rcases mem_append.mp ht with ht | ht
    · exact h.newer t ((mem_survivors h.layered).mp ht).1 r hr s hs hkey
    · obtain ⟨u, hu, hs⟩ := ((Inner.compactionOutputs_held h.functional).mp ⟨t, ht, hs⟩).1
      exact h.newer u (compactionInputs_subset hu) r hr s hs hkey
  · intro r hr
    rw [hmax]
    exact h.bounded r (Inner.runCompaction_sub h hr)

/-- What a compaction no longer holds was in an input and was reclaimed. -/
theorem Inner.reclaims_of_gone (h : inner.Ok)
    (hinputs : compactionInputs fmt opts plan inner.manifest.tables ≠ []) (hr : r ∈ inner.held)
    (hgone : r ∉ (inner.runCompaction fmt opts plan).held) :
    r ∈ heldBy (compactionInputs fmt opts plan inner.manifest.tables) ∧
      inner.Reclaims fmt opts plan r.key r.version := by
  rw [mem_runCompaction h hinputs, not_or, not_or] at hgone
  rcases hr with hr | ⟨t, ht, hr⟩
  · exact absurd hr hgone.1
  · by_cases hin : t ∈ compactionInputs fmt opts plan inner.manifest.tables
    · have hheld := (compactionOutputs_held h.functional).not.mp hgone.2.2
      rw [not_and, not_not] at hheld
      exact ⟨⟨t, hin, hr⟩, hheld ⟨t, hin, hr⟩⟩
    · exact absurd ⟨t, (mem_survivors h.layered).mpr ⟨ht, hin⟩, hr⟩ hgone.2.1

/-- A compaction hides nothing from reads above its floor. -/
theorem Inner.Ok.agrees_runCompaction (h : inner.Ok) {T : Set Record} {horizon : Version}
    (hagrees : Agrees horizon inner.held T) :
    Agrees (inner.compactionHorizon fmt opts plan horizon) (inner.runCompaction fmt opts plan).held T := by
  have hfun := h.functional
  unfold compactionHorizon
  by_cases hinputs : compactionInputs fmt opts plan inner.manifest.tables = []
  · rw [runCompaction_none hinputs, hinputs]
    exact hagrees
  rw [if_neg (by simpa using hinputs)]
  have hfloor : ∀ r : Record, r.version ≤ inner.compactionFloor opts →
      r.version < max horizon (inner.compactionFloor opts + 1) := fun r hr =>
    (Nat.lt_succ_of_le hr).trans_le (le_max_right _ _)
  have hinput : ∀ r ∈ heldBy (compactionInputs fmt opts plan inner.manifest.tables), r ∈ inner.held :=
    fun r ⟨t, ht, hr⟩ => .inr ⟨t, compactionInputs_subset ht, hr⟩
  have hmerged : ∀ r, r ∈ (mergeInputs (compactionInputs fmt opts plan inner.manifest.tables)).records ↔
      r ∈ heldBy (compactionInputs fmt opts plan inner.manifest.tables) := by
    intro r
    rw [← held_mergeInputs (hfun.subset hinput)]
    rfl
  refine (hagrees.mono (le_max_left _ _)).reclaim (runCompaction_sub h) ?_ ?_
  · intro r hr hge
    by_contra hnot
    obtain ⟨-, s, hs, hversion, -⟩ := reclaims_of_gone h hinputs hr hnot
    have := hfloor s (mem_floorGroup.mp hs).2.2
    omega
  · intro r hr hnot _ hnewest
    obtain ⟨hrin, s, hgroup, hversion, hcase⟩ := reclaims_of_gone h hinputs hr hnot
    obtain ⟨hs, hskey, hsle⟩ := mem_floorGroup.mp hgroup
    have heq : s = r := hfun s (hinput s ((hmerged s).mp hs)) r hr hskey hversion
    subst heq
    rcases hcase with ⟨x, hx, hlt⟩ | ⟨htomb, hover, -⟩
    · -- a shadowed record is not the newest below the horizon
      obtain ⟨hx, hxkey, hxle⟩ := mem_floorGroup.mp hx
      have hle := hnewest x (hinput x ((hmerged x).mp hx)) hxkey (hfloor x hxle)
      exact absurd hle (Nat.not_le.mpr hlt)
    · refine ⟨htomb, fun x hx hxkey => ?_⟩
      by_contra hlt
      have hle := hnewest x (runCompaction_sub h hx) hxkey (Nat.not_le.mp hlt)
      obtain ⟨t, ht, hst⟩ := hrin
      rcases (mem_runCompaction h hinputs).mp hx with hx | ⟨u, hu, hx⟩ | hx
      · have := h.newer t (compactionInputs_subset ht) x hx s hst hxkey.symm
        omega
      · obtain ⟨hu, hout⟩ := (mem_survivors h.layered).mp hu
        rcases left_out h.layered ht hu hout hst hx hxkey with hdeep | hlt
        · rw [hover] at hdeep
          cases hdeep
        · omega
      · -- what the tombstone shadows went with it
        obtain ⟨hxin, hkept⟩ := (compactionOutputs_held hfun).mp hx
        rcases Nat.lt_or_ge x.version s.version with hlt | hge
        · refine hkept ⟨x, mem_floorGroup.mpr ⟨(hmerged x).mpr hxin, rfl, hle.trans hsle⟩, rfl, .inl ?_⟩
          exact ⟨s, mem_floorGroup.mpr ⟨hs, hxkey.symm, hsle⟩, hlt⟩
        · obtain rfl := hfun x (hinput x hxin) s hr hxkey (le_antisymm hle hge)
          exact hnot ((mem_runCompaction h hinputs).mpr (.inr (.inr hx)))

/-- A flush that finds enough appends the memtable as a table and empties it. -/
theorem Inner.flushIfOver_eq (h : inner.Ok) (minBytes : Nat) (surviving : List Nat) :
    inner.flushIfOver minBytes surviving = inner ∨
      (inner.memtable.records ≠ [] ∧ (inner.flushIfOver minBytes surviving).memtable = .empty ∧
        (inner.flushIfOver minBytes surviving).manifest.tables =
          inner.manifest.tables ++ [⟨inner.allocSeq + 1, 0, inner.memtable⟩] ∧
        (inner.flushIfOver minBytes surviving).manifest.maxVersion = inner.manifest.maxVersion ∧
        (inner.flushIfOver minBytes surviving).allocSeq = inner.allocSeq + 1 ∧
        (inner.flushIfOver minBytes surviving).heldSnapshots = inner.heldSnapshots) := by
  unfold flushIfOver flushSnapshot
  split_ifs with hsmall
  · exact .inl rfl
  · rw [not_or] at hsmall
    refine .inr ⟨by simpa using hsmall.1, ?_, ?_, rfl, rfl, rfl⟩
    · ext r
      simp only [commitFlush, Mvcc.Store.filter, mem_filter, Mvcc.Store.empty, not_mem_nil,
        iff_false, not_and, Bool.not_eq_true', Bool.not_eq_false, any_eq_true]
      exact fun hr => ⟨r, hr, by simp⟩
    · have hseq : ∀ t ∈ inner.manifest.tables, t.seq < inner.allocSeq + 1 := fun t ht =>
        Nat.lt_succ_of_le (h.alloc t ht)
      dsimp only [commitFlush, Manifest.withFlushed]
      rw [partitionPoint, takeWhile_eq_self_iff.mpr fun t ht => decide_eq_true (hseq t ht), take_length,
        drop_length]

theorem Layered.flushed (h : inner.Ok) (hrecords : inner.memtable.records ≠ []) :
    Layered (inner.manifest.tables ++ [⟨inner.allocSeq + 1, 0, inner.memtable⟩]) := by
  refine ⟨?_, ?_, ?_, ?_⟩
  · refine pairwise_append.mpr ⟨h.layered.seqs, pairwise_singleton _ _, ?_⟩
    intro t ht u hu
    rw [mem_singleton.mp hu]
    exact Nat.lt_succ_of_le (h.alloc t ht)
  · exact forall_mem_append.mpr ⟨h.layered.nonempty, forall_mem_singleton.mpr hrecords⟩
  · intro t ht u hu hlt
    rcases mem_append.mp ht with ht | ht <;> rcases mem_append.mp hu with hu | hu
    · exact h.layered.levels t ht u hu hlt
    · rw [mem_singleton.mp hu] at hlt
      exact absurd hlt (Nat.not_lt_zero _)
    · rw [mem_singleton.mp ht]
      exact h.newer u hu
    · rw [mem_singleton.mp hu] at hlt
      exact absurd hlt (Nat.not_lt_zero _)
  · intro t ht u hu hlevel hpos hseq
    have hold : ∀ v ∈ inner.manifest.tables ++ [⟨inner.allocSeq + 1, 0, inner.memtable⟩], 0 < v.level →
        v ∈ inner.manifest.tables := by
      intro v hv hv0
      rcases mem_append.mp hv with hv | hv
      · exact hv
      · rw [mem_singleton.mp hv] at hv0
        exact absurd hv0 (Nat.lt_irrefl 0)
    exact h.layered.apart t (hold t ht hpos) u (hold u hu (hlevel ▸ hpos)) hlevel hpos hseq

theorem Inner.Ok.held_flushIfOver (h : inner.Ok) (minBytes : Nat) (surviving : List Nat) :
    (inner.flushIfOver minBytes surviving).held = inner.held := by
  rcases flushIfOver_eq h minBytes surviving with heq | ⟨-, hmem, htables, -⟩
  · rw [heq]
  · ext r
    simp only [held, hmem, htables, Mvcc.Store.held_empty, Set.mem_union, Set.mem_empty_iff_false, false_or,
      heldBy, Set.mem_ofPred_eq, mem_append, mem_singleton, Mvcc.Store.mem_held]
    constructor
    · rintro ⟨t, ht | rfl, hr⟩
      · exact .inr ⟨t, ht, hr⟩
      · exact .inl hr
    · rintro (hr | ⟨t, ht, hr⟩)
      · exact ⟨_, .inr rfl, hr⟩
      · exact ⟨t, .inl ht, hr⟩

theorem Inner.Ok.flushIfOver (h : inner.Ok) (minBytes : Nat) (surviving : List Nat) :
    (inner.flushIfOver minBytes surviving).Ok := by
  have hheld := h.held_flushIfOver minBytes surviving
  rcases flushIfOver_eq h minBytes surviving with heq | ⟨hrecords, hmem, htables, hmax, halloc, -⟩
  · rwa [heq]
  · refine ⟨?_, ?_, ?_, ?_, hheld ▸ h.functional, hmax ▸ h.top⟩
    · rw [htables]
      exact Layered.flushed h hrecords
    · intro t ht
      rw [htables] at ht
      rw [halloc]
      rcases mem_append.mp ht with ht | ht
      · exact (h.alloc t ht).trans (Nat.le_succ _)
      · rw [mem_singleton.mp ht]
    · intro t _ r hr
      rw [hmem] at hr
      exact absurd hr not_mem_nil
    · rw [hheld, hmax]
      exact h.bounded

variable {call : WriteCall} {record : WalRecord}

/-- A record of a call with one version for all it writes. -/
def WalRecord.single : WalRecord → Bool
  | .mergeBatch _ => false
  | _ => true

theorem slots_version (hsingle : record.single = true) (hr : r ∈ record.slots) :
    r.version = recordMaxVersion record := by
  cases record with
  | put key value version | delete key version => rw [mem_singleton.mp hr]; rfl
  | deleteRange start stop keys version =>
    obtain ⟨key, -, rfl⟩ := mem_map.mp hr
    rfl
  | batch version ops =>
    obtain ⟨op, -, hr⟩ := mem_flatMap.mp hr
    cases op with
    | put key value => rw [mem_singleton.mp hr]; rfl
    | delete key => rw [mem_singleton.mp hr]; rfl
    | deleteKeys keys =>
      obtain ⟨key, -, rfl⟩ := mem_map.mp hr
      rfl
  | mergeBatch ops => cases hsingle

theorem version_le_recordMaxVersion (hr : r ∈ record.slots) : r.version ≤ recordMaxVersion record := by
  by_cases hsingle : record.single = true
  · exact (slots_version hsingle hr).le
  · cases record with
    | mergeBatch ops =>
      obtain ⟨rec, hrec, rfl⟩ := mem_map.mp hr
      exact OrderedList.le_foldl_max id 0 (mem_map_of_mem hrec)
    | _ => exact absurd rfl hsingle

/-- The slots of a record that no table reaches. -/
def Inner.OnTop (inner : Inner) (slots : List Record) : Prop :=
  ∀ r ∈ slots, ∀ s ∈ heldBy inner.manifest.tables, s.key = r.key → s.version < r.version

theorem WriteCall.held_apply (htop : inner.OnTop record.slots) :
    (call.apply record inner).held = Mvcc.writes record.slots inner.held := by
  have hwrote := inner.wrote_applyRecord record
  have hfree : ∀ r ∈ record.slots, ∀ s ∈ heldBy inner.manifest.tables, s.key = r.key →
      s.version ≠ r.version := fun r hr s hs hkey => (htop r hr s hs hkey).ne
  unfold held
  rw [Mvcc.writes_union hfree, ← Mvcc.Store.held_foldl_writes, ← hwrote.memtable, ← hwrote.manifest]
  rfl

theorem Inner.Ok.apply (h : inner.Ok) (htop : inner.OnTop record.slots)
    (hmax : call.raises = false → inner.manifest.maxVersion ≤ recordMaxVersion record)
    (hfits : recordMaxVersion record ≤ versionMax) : (call.apply record inner).Ok := by
  have hwrote := inner.wrote_applyRecord record
  have htables : (call.apply record inner).manifest.tables = inner.manifest.tables :=
    (congrArg Manifest.tables hwrote.manifest :)
  have hraised : max inner.manifest.maxVersion (recordMaxVersion record) ≤
    (call.apply record inner).manifest.maxVersion := by
    unfold WriteCall.apply setMaxVersion
    dsimp only
    split_ifs with hraises
    · exact le_rfl
    · exact max_le (hmax (by simpa using hraises)) le_rfl
  refine ⟨htables ▸ h.layered, ?_, ?_, ?_, ?_, ?_⟩
  · intro t ht
    rw [htables] at ht
    exact (h.alloc t ht).trans hwrote.allocSeq.ge
  · intro t ht r hr s hs hkey
    rw [htables] at ht
    have hr : r ∈ (inner.applyRecord record).memtable.held := hr
    rw [hwrote.memtable, Mvcc.Store.held_foldl_writes] at hr
    rcases Mvcc.mem_of_mem_writes hr with hr | hr
    · exact h.newer t ht r hr s hs hkey
    · exact htop r hr s ⟨t, ht, hs⟩ hkey
  · intro r hr
    rw [WriteCall.held_apply htop] at hr
    rcases Mvcc.mem_of_mem_writes hr with hr | hr
    · exact (h.bounded r hr).trans ((le_max_left _ _).trans hraised)
    · exact (version_le_recordMaxVersion hr).trans ((le_max_right _ _).trans hraised)
  · rw [WriteCall.held_apply htop]
    exact h.functional.writes record.slots
  · unfold WriteCall.apply setMaxVersion
    dsimp only
    split_ifs
    · exact max_le h.top hfits
    · exact hfits

/-- A call at one version above everything written so far. -/
theorem Inner.Ok.onTop (h : inner.Ok) (hsingle : record.single = true)
    (hnew : inner.manifest.maxVersion < recordMaxVersion record) : inner.OnTop record.slots := by
  intro r hr s hs _
  rw [slots_version hsingle hr]
  exact (h.bounded s (.inr hs)).trans_lt hnew

/-- A merge that no version of its key reaches. -/
theorem Inner.Ok.newest (h : inner.Ok) {key : Key} {version : Version}
    (hwins : (inner.latestVersionOf fmt key).any (fun cur => version ≤ cur) = false) :
    ∀ s ∈ heldBy inner.manifest.tables, s.key = key → s.version < version := by
  intro s hs hkey
  by_contra hle
  have hreached := (inner.latestVersionOf_any fmt h.withinTop).mpr ⟨s, .inr hs, hkey, Nat.not_lt.mp hle⟩
  rw [hwins] at hreached
  cases hreached

/-- Every winner of a merge batch is an op of it that no version of its key reaches. -/
theorem Inner.mem_mergeWinners {ops : List MergeOp} {rec : MergeRec}
    (hrec : rec ∈ inner.mergeWinners fmt ops) : (∃ op ∈ ops, op.version = rec.version) ∧
      (inner.latestVersionOf fmt rec.key).any (fun cur => rec.version ≤ cur) = false := by
  unfold mergeWinners at hrec
  refine foldlRecOn (motive := fun st : List (Key × Version) × List MergeRec => ∀ rec ∈ st.2,
    (∃ op ∈ ops, op.version = rec.version) ∧
      (inner.latestVersionOf fmt rec.key).any (fun cur => rec.version ≤ cur) = false) ops _ (by simp) ?_ rec hrec
  intro st hst op hop
  unfold considerMerge
  dsimp only
  split_ifs with hlose
  · exact hst
  · refine forall_mem_append.mpr ⟨hst, forall_mem_singleton.mpr ⟨⟨op, hop, rfl⟩, ?_⟩⟩
    cases hlatest : inner.latestVersionOf fmt op.key with
    | none => rfl
    | some cur =>
      rw [hlatest] at hlose
      cases hprior : (OrderedList.lookup Prod.fst op.key st.1).map Prod.snd <;> simp_all

/-- The versions of a call are 64-bit numbers. -/
def WriteCall.InWords : WriteCall → Prop
  | .put _ _ version | .delete _ version | .merge _ _ version | .mergeTombstone _ version
  | .deleteRange _ _ version | .writeBatch version _ => version ≤ versionMax
  | .mergeBatch ops => ∀ op ∈ ops, op.version ≤ versionMax

theorem Inner.lt_of_checkMonotonic {version : Version} {u : Unit} (h : inner.checkMonotonic version = .ok u) :
    inner.manifest.maxVersion < version := by
  unfold checkMonotonic at h
  split at h
  · cases h
  · rename_i hlt
    exact Nat.not_le.mp hlt

theorem Inner.Ok.write (h : inner.Ok) (hwords : call.InWords) : (inner.write fmt call).2.Ok := by
  have hmono (record : WalRecord) (hsingle : record.single = true)
    (hfits : recordMaxVersion record ≤ versionMax) {u : Unit}
      (hcheck : inner.checkMonotonic (recordMaxVersion record) = .ok u) : (call.apply record inner).Ok :=
    h.apply (h.onTop hsingle (lt_of_checkMonotonic hcheck)) (fun _ => (lt_of_checkMonotonic hcheck).le) hfits
  cases call with
  | put key _ version | delete key version =>
    simp only [Inner.write, WriteCall.plan]
    cases hcheck : inner.checkMonotonic version with
    | error e => exact h
    | ok u => exact hmono _ rfl hwords hcheck
  | deleteRange start stop version | writeBatch version ops =>
    simp only [Inner.write, WriteCall.plan]
    split_ifs
    · exact h
    · cases hcheck : inner.checkMonotonic version with
      | error e => exact h
      | ok u => exact hmono _ rfl hwords hcheck
  | merge key _ version | mergeTombstone key version =>
    simp only [Inner.write, WriteCall.plan]
    split_ifs with hlose
    · exact h
    · refine h.apply ?_ (fun hcall => by cases hcall) hwords
      intro r hr s hs hkey
      rw [mem_singleton.mp hr] at hkey ⊢
      exact h.newest (Bool.not_eq_true _ ▸ hlose) s hs hkey
  | mergeBatch ops =>
    simp only [Inner.write, WriteCall.plan]
    split_ifs
    · exact h
    · refine h.apply ?_ (fun hcall => by cases hcall) ?_
      · intro r hr s hs hkey
        obtain ⟨rec, hrec, rfl⟩ := mem_map.mp hr
        exact h.newest (mem_mergeWinners hrec).2 s hs hkey
      · refine OrderedList.foldl_max_le (fun v hv => ?_) (Nat.zero_le _)
        obtain ⟨rec, hrec, rfl⟩ := mem_map.mp hv
        obtain ⟨op, hop, hversion⟩ := (mem_mergeWinners hrec).1
        exact hversion ▸ hwords op hop

end AnimusDb.Lsm
