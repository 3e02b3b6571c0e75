import AnimusDb.CatalogReplay
import AnimusDb.TabletRows

/-! The apply task of a control-plane node: committed commands are applied to a state in memory, and their
rows are merged into the engine, a batch at a time. A node that starts again reads its state back from the
engine. -/

open OrderedMaps AnimusDb.Placement List
open AnimusDb.Lsm (MemoryEngine MergeOp Key Version Record VersionedValue versionMax)
open scoped AnimusDb.Lsm

namespace AnimusDb.Catalog

open Metadata Lsm.MemoryEngine

variable (codecs : RowCodecs)

/-- A write of the mirror as a merge at the index of its command. -/
def KeyWrite.mergeOp (index : Version) : KeyWrite → MergeOp
  | .put key value => ⟨key, index, some value⟩
  | .delete key => ⟨key, index, none⟩

/-- What the apply task owns. -/
structure ApplyTask where
  engine : MemoryEngine
  shadow : Metadata
  watermark : Version

/-- The queue of a pass over drained commands. -/
structure ApplyPass where
  shadow : Metadata
  ops : List MergeOp
  maxIndex : Version

/-- One drained command; one that the engine already reflects is skipped. -/
def ApplyPass.apply (watermark : Version) (pass : ApplyPass) (effect : Version × MetaCommand) :
    Option ApplyPass :=
  if effect.1 ≤ watermark then some pass
  else do
    let (_, shadow, rows) ← pass.shadow.applyAndDeriveMirror effect.2
    some ⟨shadow, pass.ops ++ rows.map (fun row => (row.toKeyWrite codecs).mergeOp effect.1), effect.1⟩

def syskvMirrorVersion : UInt64 := 1

/-- The watermark and the format's version ride the batch of a pass, at its greatest index. -/
def bookkeeping (maxIndex : Version) : List MergeOp :=
  [⟨appliedIndexKey, maxIndex, some (u64Bytes (.ofNat maxIndex))⟩,
    ⟨syskvFormatVersionKey, maxIndex, some (u64Bytes syskvMirrorVersion)⟩]

/-- `meta_apply_and_compact` without an installed snapshot. -/
def ApplyTask.applyBatch (task : ApplyTask) (effects : List (Version × MetaCommand)) : Option ApplyTask := do
  let pass ← effects.foldlM (ApplyPass.apply codecs task.watermark) ⟨task.shadow, [], task.watermark⟩
  if task.watermark < pass.maxIndex then
    some ⟨task.engine.mergeAll (pass.ops ++ bookkeeping pass.maxIndex), pass.shadow, pass.maxIndex⟩
  else some { task with shadow := pass.shadow }

inductive FormatError where
  | preBaselineFormat
  | unsupportedFormatVersion (found maxSupported : Nat)
deriving DecidableEq

/-- Fold every live row onto the default state. -/
def rebuildMetadataV1 (entries : List (Key × VersionedValue)) : Option Replicated :=
  entries.foldlM (fun c entry => applyPut codecs c entry.1 entry.2.value) {}

/-- The state that the engine's live rows make; there is none where a value does not decode. -/
def rebuildMetadataFromEngine (engine : MemoryEngine) : Option (Except FormatError Metadata) :=
  match engine.entries.find? fun entry => entry.1 = syskvFormatVersionKey with
  | none => some (if engine.entries.isEmpty then .ok {} else .error .preBaselineFormat)
  | some entry => do
      let version ← decodeU64 entry.2.value
      if version = syskvMirrorVersion then
        some (.ok (.ofReplicated (← rebuildMetadataV1 codecs engine.entries)))
      else some (.error (.unsupportedFormatVersion (min version.toNat 255) syskvMirrorVersion.toNat))

/-- `meta_apply_seed`: the task of a node that starts. -/
def ApplyTask.seed (engine : MemoryEngine) : Option (Except FormatError ApplyTask) := do
  match ← rebuildMetadataFromEngine codecs engine with
  | .error e => some (.error e)
  | .ok shadow =>
    let watermark ← match engine.get appliedIndexKey with
      | some row => (decodeU64 row.value).map UInt64.toNat
      | none => some 0
    some (.ok ⟨engine, shadow, watermark⟩)

variable {dropped : List (Key × Version)} {op : MergeOp} {engine : MemoryEngine} {bound : Version}

section Engine

variable {key : Key}

/-- The keys of the mirror's own bookkeeping. -/
def Bookkept (key : Key) : Prop := key = appliedIndexKey ∨ key = syskvFormatVersionKey

theorem not_bookkept (k : SysKey) : ¬ Bookkept k.encode := by
  obtain ⟨kind, id, hdecode, hof⟩ := k.decodeKey_encode
  rintro (heq | heq) <;> rw [heq] at hdecode
  · simp at hdecode
  · rw [syskvFormatVersionKey, counterKey, decodeKey_entityKey] at hdecode
    cases hdecode
    have hnone : SysKey.ofId .counter (strBytes syskvFormatVersionCounter) = none := by decide +kernel
    rw [hnone] at hof
    cases hof

/-- The mirror's own rows are no part of the state. -/
theorem applyPut_bookkept (codecs : RowCodecs) (c : Replicated) (h : Bookkept key) (n : UInt64) :
    applyPut codecs c key (u64Bytes n) = some c := by
  rcases h with rfl | rfl
  · rw [applyPut, decodeKey_appliedIndexKey]
  · have hnext : strBytes syskvFormatVersionCounter ≠ strBytes nextTabletIdCounter := by decide +kernel
    have hversion : strBytes syskvFormatVersionCounter ≠ strBytes clusterVersionCounter := by decide +kernel
    have htable : pitrGenerationTable (strBytes syskvFormatVersionCounter) = none := by decide +kernel
    simp [syskvFormatVersionKey, counterKey, applyPut_entityKey, putEntity, hnext, hversion, htable]

/-- No key is newer than the bound. -/
def Below (engine : MemoryEngine) (bound : Version) :
    Prop := ∀ key r, engine.newest key = some r → r.version ≤ bound

theorem Below.bounded {bound : Version} (h : Below engine bound) (hbound : bound ≤ versionMax) :
    Lsm.Bounded engine.data.held := by
  intro r hr
  cases hnewest : engine.newest r.key with
  | none => exact absurd rfl (newest_eq_none.mp hnewest r hr)
  | some s => exact ((newest_eq_some hnewest).2.2 r hr rfl).trans ((h r.key s hnewest).trans hbound)

/-- The engine holds what another one holds at a key, where an old tombstone may have been reclaimed. -/
def Stands (bound : Version) (engine whole : MemoryEngine) (key : Key) : Prop :=
  engine.newest key = whole.newest key ∨
    engine.newest key = none ∧ ∃ r, whole.newest key = some r ∧ r.value = none ∧ r.version ≤ bound

variable {whole : MemoryEngine} {ops : List MergeOp}

section

variable (h : Stands bound engine whole key)

include h

theorem Stands.mono {later : Version} (hle : bound ≤ later) : Stands later engine whole key := by
  rcases h with hsame | ⟨hnone, r, hr, hdead, hold⟩
  · exact .inl hsame
  · exact .inr ⟨hnone, r, hr, hdead, hold.trans hle⟩

theorem Stands.read_eq : engine.read key = whole.read key := by
  rcases h with hsame | ⟨hnone, r, hr, hdead, -⟩
  · rw [MemoryEngine.read, MemoryEngine.read, hsame]
  · simp [MemoryEngine.read, hnone, hr, Lsm.live, hdead]

theorem Stands.newest_whole {r : Record} (hr : engine.newest key = some r) : whole.newest key = some r := by
  rcases h with heq | ⟨hnone, -⟩
  · exact heq.symm.trans hr
  · rw [hnone] at hr
    cases hr

/-- A newer operation finds the same place in both. -/
theorem Stands.mergeSlot (hop : bound < op.version) :
    Stands bound (engine.mergeSlot op).2 (whole.mergeSlot op).2 key := by
  by_cases hkey : op.key = key
  · subst hkey
    rcases h with hsame | ⟨hnone, r, hr, -, hold⟩
    · exact .inl (newest_mergeSlot_congr hsame)
    · have hwins : engine.Wins op := fun s hs => by simp [hnone] at hs
      have hwins' : whole.Wins op := by
        intro s hs
        rw [hr] at hs
        cases hs
        exact hold.trans_lt hop
      exact .inl ((newest_mergeSlot_of_wins hwins).trans (newest_mergeSlot_of_wins hwins').symm)
  · unfold Stands
    rwa [newest_mergeSlot_of_ne hkey, newest_mergeSlot_of_ne hkey]

theorem Stands.mergeAll (hops : ∀ op ∈ ops, bound < op.version) :
    Stands bound (engine.mergeAll ops) (whole.mergeAll ops) key := by
  induction ops generalizing engine whole with
  | nil => exact h
  | cons op rest ih =>
    exact ih (h.mergeSlot (hops op mem_cons_self)) fun op' hop' => hops op' (mem_cons_of_mem _ hop')

theorem Stands.reclaim {floor : Version} (hbelow : Below engine bound)
    (hdrop : engine.Reclaimable floor dropped) : Stands bound (engine.reclaim dropped) whole key := by
  rcases newest_reclaim hdrop key with hsame | ⟨r, hr, hdead, -, hgone⟩
  · unfold Stands
    rwa [hsame]
  · exact .inr ⟨hgone, r, h.newest_whole hr, hdead, hbelow key r hr⟩

end

theorem Below.mergeAll {later : Version} (h : Below engine bound) (hle : bound ≤ later)
    (hops : ∀ op ∈ ops, op.version ≤ later) : Below (engine.mergeAll ops) later := by
  intro key r hr
  rcases newest_mergeAll engine ops key with hsame | ⟨op, hop, -, hnew⟩
  · exact (h key r (hsame.symm.trans hr)).trans hle
  · obtain rfl := Option.some.inj (hnew.symm.trans hr)
    exact hops op hop

end Engine

variable {k : SysKey} {codecs : RowCodecs} {r : Replicated}

open RowWrite

/-- The row of a key is in the engine as the state has it, or is in neither. -/
def RowStored (codecs : RowCodecs) (engine : MemoryEngine) (r : Replicated) (k : SysKey) : Prop :=
  (engine.read k.encode).map VersionedValue.value = (r.rowAt k).value codecs ∨
    engine.read k.encode = none ∧ r.rowAt k = ({} : Replicated).rowAt k

theorem rowAt_of_value_none (h : (r.rowAt k).value codecs = none) :
    r.rowAt k = ({} : Replicated).rowAt k := by
  cases k <;> simp_all [Replicated.rowAt, value]

/-- What the engine holds in the system keyspace: rows of the state, and the mirror's own. -/
structure Stores (codecs : RowCodecs) (engine : MemoryEngine) (r : Replicated) : Prop where
  bounded : Lsm.Bounded engine.data.held
  rows : ∀ k : SysKey, RowStored codecs engine r k
  keys : ∀ key, engine.read key ≠ none → (∃ k : SysKey, key = k.encode) ∨ Bookkept key
  marks : ∀ key v, Bookkept key → engine.read key = some v → ∃ n, v.value = u64Bytes n

/-- Fold of the live rows: those of the state are installed, the mirror's own are skipped. -/
theorem Stores.foldlM_applyPut (h : Stores codecs engine r) (c : Replicated)
    {entries : List (Key × VersionedValue)}
    (hentries : ∀ entry ∈ entries, engine.read entry.1 = some entry.2) :
    ∃ rows, entries.foldlM (fun c entry => applyPut codecs c entry.1 entry.2.value) c =
      some (rows.foldl install c) ∧
      Reads r rows ∧ ∀ k : SysKey, k.encode ∈ entries.map Prod.fst ↔ k ∈ rows.map key := by
  induction entries generalizing c with
  | nil => exact ⟨[], rfl, fun w hw => absurd hw not_mem_nil, fun k => by simp⟩
  | cons entry rest ih =>
    obtain ⟨bytes, v⟩ := entry
    have hread : engine.read bytes = some v := hentries _ mem_cons_self
    have hrest : ∀ entry ∈ rest, engine.read entry.1 = some entry.2 := fun e he =>
      hentries e (mem_cons_of_mem _ he)
    rcases h.keys bytes (by simp [hread]) with ⟨k, rfl⟩ | hmark
    · have hvalue : (r.rowAt k).value codecs = some v.value := by
        rcases h.rows k with hstored | ⟨hnone, -⟩
        · rw [← hstored, hread]
          rfl
        · rw [hread] at hnone
          cases hnone
      obtain ⟨rows, hfold, hreads, hcovers⟩ := ih ((r.rowAt k).install c) hrest
      refine ⟨r.rowAt k :: rows, ?_, ?_, ?_⟩
      · have hput := applyPut_value codecs c hvalue
        rw [key_rowAt] at hput
        rw [foldlM_cons, hput]
        exact hfold
      · refine forall_mem_cons.mpr ⟨?_, hreads⟩
        rw [key_rowAt]
      · intro k'
        have hsame : k'.encode = k.encode ↔
          k' = k := ⟨fun heq => SysKey.encode_injective heq, fun heq => by rw [heq]⟩
        simp only [map_cons, mem_cons, key_rowAt, hsame, hcovers]
    · obtain ⟨n, hn⟩ := h.marks bytes v hmark hread
      obtain ⟨rows, hfold, hreads, hcovers⟩ := ih c hrest
      refine ⟨rows, ?_, hreads, fun k' => ?_⟩
      · rw [foldlM_cons, show v.value = u64Bytes n from hn, applyPut_bookkept codecs c hmark]
        exact hfold
      · have hne : k'.encode ≠ bytes := fun heq => not_bookkept k' (heq ▸ hmark)
        simp only [map_cons, mem_cons, hne, false_or, hcovers]

theorem Stores.rebuildMetadataV1 (h : Stores codecs engine r) :
    rebuildMetadataV1 codecs engine.entries = some r := by
  obtain ⟨rows, hfold, hreads, hcovers⟩ := h.foldlM_applyPut {} fun entry (hentry : entry ∈ engine.entries) =>
    (mem_entries h.bounded).mp hentry
  rw [Catalog.rebuildMetadataV1, hfold, foldl_install_eq hreads fun k hk => (hcovers k).mp ?_]
  -- a row that is not the default's is in the engine
  rcases h.rows k with hstored | ⟨-, hsame⟩
  · cases hread : engine.read k.encode with
    | none =>
      rw [hread] at hstored
      exact absurd (rowAt_of_value_none hstored.symm) hk
    | some v => exact mem_map.mpr ⟨(k.encode, v), (mem_entries h.bounded).mpr hread, rfl⟩
  · exact absurd hsame hk

/-- The format's row is there, unless there is nothing at all. -/
def Versioned (engine : MemoryEngine) : Prop :=
  (∀ key, engine.read key = none) ∨
    (engine.read syskvFormatVersionKey).map VersionedValue.value = some (u64Bytes syskvMirrorVersion)

theorem Stores.rebuild (h : Stores codecs engine r) (hversion : Versioned engine) :
    rebuildMetadataFromEngine codecs engine = some (.ok (.ofReplicated r)) := by
  unfold rebuildMetadataFromEngine
  rcases hversion with hempty | hversion
  · have hnone : engine.entries = [] := by
      refine eq_nil_iff_forall_not_mem.mpr fun entry hentry => ?_
      have := (mem_entries h.bounded).mp hentry
      simp [hempty] at this
    have hrebuilt := h.rebuildMetadataV1
    rw [hnone] at hrebuilt ⊢
    cases hrebuilt
    rfl
  · obtain ⟨v, hv, hvalue⟩ := Option.map_eq_some_iff.mp hversion
    have hmem : (syskvFormatVersionKey, v) ∈ engine.entries := (mem_entries h.bounded).mpr hv
    cases hfind : engine.entries.find? fun entry => entry.1 = syskvFormatVersionKey with
    | none => simpa using find?_eq_none.mp hfind _ hmem
    | some entry =>
      have hkey : entry.1 = syskvFormatVersionKey := by simpa using find?_some hfind
      have hread := (mem_entries h.bounded).mp (mem_of_find?_eq_some hfind)
      rw [hkey, hv] at hread
      cases hread
      simp [hvalue, h.rebuildMetadataV1]

open RowWrite

variable {post : Replicated} {rows : List RowWrite} {index : Version}

theorem mergeOp_toKeyWrite (w : RowWrite) :
    (w.toKeyWrite codecs).mergeOp index = ⟨w.key.encode, index, w.value codecs⟩ := by
  unfold RowWrite.toKeyWrite
  cases w.value codecs <;> rfl

/-- The merges of a command's rows. -/
def rowOps (codecs : RowCodecs) (index : Version) (rows : List RowWrite) : List MergeOp :=
  rows.map fun row => (row.toKeyWrite codecs).mergeOp index

theorem mem_rowOps (h : op ∈ rowOps codecs index rows) :
    ∃ w ∈ rows, op = ⟨w.key.encode, index, w.value codecs⟩ := by
  obtain ⟨w, hw, rfl⟩ := mem_map.mp h
  exact ⟨w, hw, mergeOp_toKeyWrite w⟩

/-- A row that the command writes is the newest of its key afterwards. All writes of one row carry the same
contents. -/
theorem newest_rowOps_of_mem (hbelow : Below engine bound) (hindex : bound < index) (hreads : Reads post rows)
    (hk : k ∈ rows.map key) : (engine.mergeAll (rowOps codecs index rows)).newest k.encode =
      some ⟨k.encode, index, (post.rowAt k).value codecs⟩ := by
  obtain ⟨w, hw, rfl⟩ := mem_map.mp hk
  have hop : (w.toKeyWrite codecs).mergeOp index ∈ rowOps codecs index rows := mem_map_of_mem hw
  obtain ⟨s, hs, hle⟩ := reaches_mergeAll engine hop
  rw [mergeOp_toKeyWrite] at hs hle
  rcases newest_mergeAll engine (rowOps codecs index rows) w.key.encode with hsame | ⟨op, hop, hkey, hnew⟩
  · have hold := hbelow _ s (hsame.symm.trans hs)
    exact absurd (hle.trans hold) (Nat.not_le.mpr hindex)
  · obtain ⟨w', hw', rfl⟩ := mem_rowOps hop
    have hsame : w'.key = w.key := SysKey.encode_injective hkey
    rw [hnew, hreads w' hw', key_rowAt, hsame]

/-- The rows of a command bring the stored rows to the state after it. -/
theorem newest_rowOps (hbelow : Below engine bound) (hindex : bound < index) (hreads : Reads post rows)
    (hinstall : rows.foldl install r = post) (k : SysKey) :
    (engine.mergeAll (rowOps codecs index rows)).newest k.encode =
        some ⟨k.encode, index, (post.rowAt k).value codecs⟩ ∨
      (engine.mergeAll (rowOps codecs index rows)).newest k.encode = engine.newest k.encode ∧
        post.rowAt k = r.rowAt k := by
  by_cases hk : k ∈ rows.map key
  · exact .inl (newest_rowOps_of_mem hbelow hindex hreads hk)
  · refine .inr ⟨newest_mergeAll_of_ne fun op hop => ?_, ?_⟩
    · obtain ⟨w, hw, rfl⟩ := mem_rowOps hop
      exact fun heq => hk (SysKey.encode_injective heq ▸ mem_map_of_mem hw)
    · have hlookup := rowAt_foldl_install (c := r) hreads k
      rwa [if_neg hk, hinstall] at hlookup

/-- Committed commands in the order of their log indices. -/
structure CommandLog where
  entries : List (Version × MetaCommand)
  ordered : entries.Pairwise fun a b => a.1 < b.1
  positive : ∀ entry ∈ entries, 0 < entry.1
  bounded : ∀ entry ∈ entries, entry.1 ≤ versionMax

variable {q s p : Nat}

namespace CommandLog

abbrev InRange (log : CommandLog) : Prop := ∀ entry ∈ log.entries, Metadata.IdsInRange entry.2

variable (log : CommandLog) (codecs : RowCodecs)

def commands (p : Nat) : List MetaCommand := (log.entries.take p).map Prod.snd

/-- The state after the first commands, applied directly. -/
def state (p : Nat) : Metadata := .run {} (log.commands p)

/-- The index of the last of the first commands. -/
def mark (p : Nat) : Version := ((log.entries.take p).getLast?.map Prod.fst).getD 0

/-- The engine after the first commands, merged one by one with nothing reclaimed. -/
def whole : Nat → MemoryEngine
  | 0 => .empty
  | p + 1 =>
    match log.entries[p]? with
    | none => whole p
    | some entry =>
      let rows := (((log.state p).applyAndDeriveMirror entry.2).map fun derived => derived.2.2).getD []
      (whole p).mergeAll (rowOps codecs entry.1 rows)

variable {log codecs} {entry : Version × MetaCommand}

theorem take_succ (h : log.entries[p]? = some entry) :
    log.entries.take (p + 1) = log.entries.take p ++ [entry] := by
  rw [take_add_one, h]
  rfl

theorem state_succ (h : log.entries[p]? = some entry) :
    log.state (p + 1) = ((log.state p).apply entry.2).2 := by
  rw [state, commands, take_succ h, map_append, run_append]
  rfl

theorem mark_succ (h : log.entries[p]? = some entry) : log.mark (p + 1) = entry.1 := by
  rw [mark, take_succ h]
  simp

theorem take_succ_of_none (h : log.entries[p]? = none) : log.entries.take (p + 1) = log.entries.take p := by
  rw [take_add_one, h]
  exact append_nil _

theorem mark_lt (h : log.entries[p]? = some entry) : log.mark p < entry.1 := by
  cases p with
  | zero => exact log.positive entry (List.mem_of_getElem? h)
  | succ q =>
    obtain ⟨hlt, rfl⟩ := List.getElem?_eq_some_iff.mp h
    rw [mark_succ (List.getElem?_eq_getElem (Nat.lt_of_succ_lt hlt))]
    exact List.pairwise_iff_getElem.mp log.ordered q (q + 1) (Nat.lt_of_succ_lt hlt) hlt (Nat.lt_succ_self q)

theorem mark_le_succ (p : Nat) : log.mark p ≤ log.mark (p + 1) := by
  cases h : log.entries[p]? with
  | none => rw [mark, mark, take_succ_of_none h]
  | some entry =>
    rw [mark_succ h]
    exact (mark_lt h).le

theorem mark_mono (h : p ≤ q) : log.mark p ≤ log.mark q := by
  induction h with
  | refl => exact le_rfl
  | step _ ih => exact ih.trans (mark_le_succ _)

theorem mark_lt_mark (h : p < q) (hq : q ≤ log.entries.length) : log.mark p < log.mark q := by
  obtain ⟨q, rfl⟩ : ∃ n, q = n + 1 := ⟨q - 1, by omega⟩
  have hentry := getElem?_eq_getElem (by omega : q < log.entries.length)
  rw [mark_succ hentry]
  exact (mark_mono (by omega)).trans_lt (mark_lt hentry)

theorem mark_le_versionMax (p : Nat) : log.mark p ≤ versionMax := by
  induction p with
  | zero => exact Nat.zero_le _
  | succ p ih =>
    cases h : log.entries[p]? with
    | none => rwa [mark, take_succ_of_none h]
    | some entry =>
      rw [mark_succ h]
      exact log.bounded entry (mem_of_getElem? h)

section Whole

variable (hids : log.InRange)
include hids

theorem sound_state (p : Nat) : (log.state p).Sound := by
  refine sound_default.run (log.commands p) fun c hc => ?_
  obtain ⟨entry, hentry, rfl⟩ := mem_map.mp hc
  exact hids entry (mem_of_mem_take hentry)

theorem exists_rows (codecs : RowCodecs) (h : log.entries[p]? = some entry) :
    ∃ rows, (log.state p).applyAndDeriveMirror entry.2 =
    some (((log.state p).apply entry.2).1, log.state (p + 1), rows) ∧
      rows.foldl RowWrite.install (log.state p).toReplicated = (log.state (p + 1)).toReplicated ∧
      RowWrite.Reads (log.state (p + 1)).toReplicated rows ∧
        log.whole codecs (p + 1) = (log.whole codecs p).mergeAll (rowOps codecs entry.1 rows) := by
  obtain ⟨rows, hderive, hinstall, hreads, -⟩ := (sound_state hids p).applyAndDeriveMirror entry.2
  rw [state_succ h]
  refine ⟨rows, hderive, hinstall, hreads, ?_⟩
  simp only [whole, h, hderive]
  rfl

theorem below_whole (p : Nat) : Below (log.whole codecs p) (log.mark p) := by
  induction p with
  | zero =>
    intro key r hr
    have hnone : empty.newest key = none := rfl
    rw [whole, hnone] at hr
    cases hr
  | succ p ih =>
    cases h : log.entries[p]? with
    | none => rwa [whole, h, mark, take_succ_of_none h]
    | some entry =>
      obtain ⟨rows, -, -, -, hwhole⟩ := exists_rows hids codecs h
      rw [hwhole, mark_succ h]
      refine ih.mergeAll (mark_lt h).le fun op hop => ?_
      obtain ⟨w, -, rfl⟩ := mem_rowOps hop
      exact le_rfl

/-- The newest record of a row has what the state has; a row without a record is as in the empty state. -/
theorem newest_whole (p : Nat) (k : SysKey) : (∃ version, (log.whole codecs p).newest k.encode =
      some ⟨k.encode, version, ((log.state p).toReplicated.rowAt k).value codecs⟩) ∨
    ((log.whole codecs p).newest k.encode = none ∧
      (log.state p).toReplicated.rowAt k = ({} : Replicated).rowAt k) := by
  induction p with
  | zero => exact .inr ⟨rfl, rfl⟩
  | succ p ih =>
    cases h : log.entries[p]? with
    | none =>
      have hstate : log.state (p + 1) = log.state p := by rw [state, state, commands, commands, take_succ_of_none h]
      rw [whole, h, hstate]
      exact ih
    | some entry =>
      obtain ⟨rows, -, hinstall, hreads, hwhole⟩ := exists_rows hids codecs h
      rw [hwhole]
      rcases newest_rowOps (below_whole hids p) (mark_lt h) hreads hinstall k with hnew | ⟨hsame, hrow⟩
      · exact .inl ⟨_, hnew⟩
      · rwa [hsame, hrow]

theorem rowStored_whole (p : Nat) (k : SysKey) :
    RowStored codecs (log.whole codecs p) (log.state p).toReplicated k := by
  rcases newest_whole hids p k with ⟨version, hnew⟩ | ⟨hnone, hrow⟩
  · left
    rw [MemoryEngine.read, hnew]
    cases ((log.state p).toReplicated.rowAt k).value codecs <;> rfl
  · exact .inr ⟨by rw [MemoryEngine.read, hnone]; rfl, hrow⟩

/-- A key's newest record stays, or a later command wrote a newer one. -/
theorem newest_whole_later (codecs : RowCodecs) (hle : p ≤ q) (key : Key) :
    (log.whole codecs q).newest key = (log.whole codecs p).newest key ∨
      ∃ r, (log.whole codecs q).newest key = some r ∧ log.mark p < r.version := by
  induction hle with
  | refl => exact .inl rfl
  | @step q hle ih =>
    cases h : log.entries[q]? with
    | none => rwa [whole, h]
    | some entry =>
      obtain ⟨rows, -, -, -, hwhole⟩ := exists_rows hids codecs h
      rw [hwhole]
      rcases newest_mergeAll (log.whole codecs q) (rowOps codecs entry.1 rows) key with hsame | ⟨op, hop, -, hnew⟩
      · rwa [hsame]
      · obtain ⟨w, -, rfl⟩ := mem_rowOps hop
        exact .inr ⟨_, hnew, (mark_mono hle).trans_lt (mark_lt h)⟩

end Whole

end CommandLog

section Runs

variable (codecs : RowCodecs) (log : CommandLog)

/-- A node over a committed log. Commands are delivered from `position` on; `reached` of them were delivered
at least once. -/
structure ControlRun where
  task : ApplyTask
  position : Nat
  reached : Nat

inductive ControlEvent where
  /-- One pass over the next commands. -/
  | batch (count : Nat)
  /-- The process ends and starts again; the log then delivers the last commands once more. -/
  | crash (redelivered : Nat)
  /-- The engine reclaims old records. -/
  | reclaim (floor : Version) (dropped : List (Key × Version))

def ControlRun.start : ControlRun := ⟨⟨.empty, {}, 0⟩, 0, 0⟩

/-- There is no next state where the code panics or the node halts. -/
def ControlRun.step (run : ControlRun) : ControlEvent → Option ControlRun
  | .batch count => do
      let task ← run.task.applyBatch codecs ((log.entries.drop run.position).take count)
      let position := min (run.position + count) log.entries.length
      some ⟨task, position, max run.reached position⟩
  | .crash redelivered => do
      match ← ApplyTask.seed codecs run.task.engine with
      | .ok task => some ⟨task, run.position - redelivered, run.reached⟩
      | .error _ => none
  | .reclaim floor dropped =>
    if run.task.engine.Reclaimable floor dropped then
      some { run with task := { run.task with engine := run.task.engine.reclaim dropped } }
    else some run

def ControlRun.steps (run : ControlRun) (events : List ControlEvent) : Option ControlRun :=
  events.foldlM (ControlRun.step codecs log) run

end Runs

variable {pass : ApplyPass} {log : CommandLog}

/-- The engine of a node that applied the first commands of the log. -/
structure Reflects (codecs : RowCodecs) (log : CommandLog) (p : Nat) (engine : MemoryEngine) : Prop where
  below : Below engine (log.mark p)
  rows : ∀ k : SysKey, Stands (log.mark p) engine (log.whole codecs p) k.encode
  keys : ∀ key, engine.newest key ≠ none → (∃ k : SysKey, key = k.encode) ∨ Bookkept key
  marks : (log.mark p = 0 ∧ ∀ key, engine.newest key = none) ∨ ∀ op ∈ bookkeeping (log.mark p),
    engine.newest op.key = some op

section

variable (h : Reflects codecs log p engine)

include h

theorem Reflects.value_bookkept {key : Key} {v : VersionedValue} (hkey : Bookkept key)
    (hread : engine.read key = some v) : ∃ n, v.value = u64Bytes n := by
  rcases h.marks with ⟨-, hempty⟩ | hmarks
  · rw [MemoryEngine.read, hempty] at hread
    cases hread
  · simp only [bookkeeping, forall_mem_cons] at hmarks
    rcases hkey with rfl | rfl
    · rw [MemoryEngine.read, hmarks.1] at hread
      cases hread
      exact ⟨_, rfl⟩
    · rw [MemoryEngine.read, hmarks.2.1] at hread
      cases hread
      exact ⟨_, rfl⟩

theorem Reflects.stores (hids : log.InRange) : Stores codecs engine (log.state p).toReplicated where
  bounded := h.below.bounded (CommandLog.mark_le_versionMax p)
  rows k := by
    unfold RowStored
    rw [(h.rows k).read_eq]
    exact CommandLog.rowStored_whole hids p k
  keys key hread := by
    refine h.keys key fun hnone => hread ?_
    rw [MemoryEngine.read, hnone]
    rfl
  marks key v hkey hv := h.value_bookkept hkey hv

theorem Reflects.versioned : Versioned engine := by
  rcases h.marks with ⟨-, hempty⟩ | hmarks
  · exact .inl fun key => by rw [MemoryEngine.read, hempty]; rfl
  · simp only [bookkeeping, forall_mem_cons] at hmarks
    exact .inr (by rw [MemoryEngine.read, hmarks.2.1]; rfl)

/-- **A node that starts again reads back the state that it lost.** -/
theorem Reflects.rebuild (hids : log.InRange) :
    rebuildMetadataFromEngine codecs engine = some (.ok (.ofReplicated (log.state p).toReplicated)) :=
  (h.stores hids).rebuild h.versioned

end

/-- The task of a node that applied the first commands of the log. -/
structure Tracks (codecs : RowCodecs) (log : CommandLog) (p : Nat) (task : ApplyTask) : Prop where
  twin : Metadata.Twin task.shadow (log.state p)
  mark : task.watermark = log.mark p
  reflects : Reflects codecs log p task.engine

theorem Tracks.seed {task : ApplyTask} (h : Tracks codecs log p task) (hids : log.InRange) :
    ∃ task', ApplyTask.seed codecs task.engine = some (.ok task') ∧ Tracks codecs log p task' := by
  have hget : task.engine.get appliedIndexKey = task.engine.read appliedIndexKey :=
    MemoryEngine.get_eq_read (h.reflects.below.bounded (CommandLog.mark_le_versionMax p)) _
  refine ⟨⟨task.engine, .ofReplicated (log.state p).toReplicated, log.mark p⟩, ?_, ?_, rfl, h.reflects⟩
  · unfold ApplyTask.seed
    rw [h.reflects.rebuild hids, hget]
    rcases h.reflects.marks with ⟨hzero, hempty⟩ | hmarks
    · rw [MemoryEngine.read, hempty, hzero]
      rfl
    · simp only [bookkeeping, forall_mem_cons] at hmarks
      rw [MemoryEngine.read, hmarks.1]
      simpa [Lsm.live] using Nat.lt_of_le_of_lt (CommandLog.mark_le_versionMax p) (by decide : versionMax < 2 ^ 64)
  · exact twin_ofReplicated (CommandLog.sound_state hids p).indexed

theorem Reflects.reclaim {floor : Version} (h : Reflects codecs log p engine)
    (hdrop : engine.Reclaimable floor dropped) : Reflects codecs log p (engine.reclaim dropped) := by
  have hnewest := newest_reclaim hdrop
  refine ⟨fun key r hr => ?_, fun k => (h.rows k).reclaim h.below hdrop, fun key hkey => ?_, ?_⟩
  · rcases hnewest key with hsame | ⟨_, -, -, -, hgone⟩
    · exact h.below key r (hsame.symm.trans hr)
    · rw [hgone] at hr
      cases hr
  · rcases hnewest key with hsame | ⟨_, -, -, -, hgone⟩
    · exact h.keys key (hsame ▸ hkey)
    · exact absurd hgone hkey
  · rcases h.marks with ⟨hzero, hempty⟩ | hmarks
    · refine .inl ⟨hzero, fun key => ?_⟩
      rcases hnewest key with hsame | ⟨_, -, -, -, hgone⟩
      · exact hsame.trans (hempty key)
      · exact hgone
    · refine .inr fun op hop => newest_reclaim_of_value hdrop (hmarks op hop) ?_
      simp only [bookkeeping, mem_cons, not_mem_nil, or_false] at hop
      rcases hop with rfl | rfl <;> rfl

/-- A pass over commands from where the engine stands: its queue would bring the engine to a later point of
the log. -/
structure PassTracks (codecs : RowCodecs) (log : CommandLog) (engine : MemoryEngine) (p q : Nat)
    (pass : ApplyPass) : Prop where
  twin : Metadata.Twin pass.shadow (log.state q)
  mark : pass.maxIndex = log.mark q
  below : Below (engine.mergeAll pass.ops) (log.mark q)
  rows : ∀ k : SysKey, Stands (log.mark p) (engine.mergeAll pass.ops) (log.whole codecs q) k.encode
  keys : ∀ op ∈ pass.ops, ∃ k : SysKey, op.key = k.encode

/-- One command of a pass: it was applied before and is skipped, or it is the next one. -/
theorem PassTracks.apply {entry : Version × MetaCommand}
    (h : PassTracks codecs log engine p (max p s) pass) (hids : log.InRange)
    (hentry : log.entries[s]? = some entry) :
    ∃ pass', ApplyPass.apply codecs (log.mark p) pass entry = some pass' ∧
      PassTracks codecs log engine p (max p (s + 1)) pass' := by
  unfold ApplyPass.apply
  by_cases hs : s < p
  · rw [if_pos (CommandLog.mark_succ hentry ▸ CommandLog.mark_mono hs)]
    refine ⟨pass, rfl, ?_⟩
    rw [max_eq_left (by omega : s ≤ p)] at h
    rwa [max_eq_left (by omega : s + 1 ≤ p)]
  · rw [max_eq_right (by omega : p ≤ s)] at h
    rw [max_eq_right (by omega : p ≤ s + 1)]
    have hmark : log.mark p < entry.1 := (CommandLog.mark_mono (by omega)).trans_lt (CommandLog.mark_lt hentry)
    obtain ⟨rows, hderive, hinstall, hreads, hwhole⟩ := CommandLog.exists_rows hids codecs hentry
    -- the task's own state derives the same rows
    rw [if_neg (Nat.not_le.mpr hmark), h.twin.applyAndDeriveMirror hderive]
    refine ⟨_, rfl, ?_⟩
    have hversion : ∀ op ∈ rowOps codecs entry.1 rows, op.version = entry.1 := by
      intro op hop
      obtain ⟨w, -, rfl⟩ := mem_rowOps hop
      rfl
    constructor
    · rw [CommandLog.state_succ hentry]
      exact (h.twin.apply entry.2).2
    · exact (CommandLog.mark_succ hentry).symm
    · rw [mergeAll_append, CommandLog.mark_succ hentry]
      exact h.below.mergeAll (CommandLog.mark_lt hentry).le fun op hop => (hversion op hop).le
    · intro k
      rw [mergeAll_append, hwhole]
      exact (h.rows k).mergeAll fun op hop => (hversion op hop).symm ▸ hmark
    · intro op hop
      rcases mem_append.mp hop with hop | hop
      · exact h.keys op hop
      · obtain ⟨w, -, rfl⟩ := mem_rowOps hop
        exact ⟨w.key, rfl⟩

theorem PassTracks.foldlM (count : Nat) (h : PassTracks codecs log engine p (max p s) pass)
    (hids : log.InRange) (hs : s ≤ log.entries.length) :
    ∃ pass', ((log.entries.drop s).take count).foldlM (ApplyPass.apply codecs (log.mark p)) pass =
      some pass' ∧ PassTracks codecs log engine p (max p (min (s + count) log.entries.length)) pass' := by
  induction count generalizing s pass with
  | zero => exact ⟨pass, by simp, by rwa [Nat.add_zero, min_eq_left hs]⟩
  | succ count ih =>
    cases hentry : log.entries[s]? with
    | none =>
      have hlen : log.entries.length = s := Nat.le_antisymm (List.getElem?_eq_none_iff.mp hentry) hs
      refine ⟨pass, by simp [← hlen], ?_⟩
      rwa [hlen, min_eq_right (by omega)]
    | some entry =>
      obtain ⟨hlt, -⟩ := List.getElem?_eq_some_iff.mp hentry
      obtain ⟨mid, hmid, htracks⟩ := h.apply hids hentry
      obtain ⟨pass', hpass', hdone⟩ := ih htracks hlt
      have hslice : (log.entries.drop s).take (count + 1) = entry ::
        (log.entries.drop (s + 1)).take count := by
        rw [List.drop_eq_getElem?_toList_append, hentry]
        simp
      refine ⟨pass', ?_, ?_⟩
      · rw [hslice, List.foldlM_cons, hmid]
        exact hpass'
      · rwa [Nat.add_right_comm, Nat.add_assoc] at hdone

/-- The bookkeeping of a batch is the newest of its keys. -/
theorem newest_bookkeeping {bound index : Version}
    (hold : ∀ key, Bookkept key → ∀ r, engine.newest key = some r → r.version ≤ bound)
    (hindex : bound < index) :
    ∀ op ∈ bookkeeping index, (engine.mergeAll (bookkeeping index)).newest op.key = some op := by
  have hbook : ∀ op ∈ bookkeeping index, Bookkept op.key ∧ op.version = index := by
    simp [bookkeeping, Bookkept]
  have hdistinct : ∀ op ∈ bookkeeping index, ∀ op' ∈ bookkeeping index, op.key = op'.key → op = op' := by
    have hne : appliedIndexKey ≠ syskvFormatVersionKey := by
      intro heq
      have hdecode := decodeKey_appliedIndexKey
      rw [heq, syskvFormatVersionKey, counterKey, decodeKey_entityKey] at hdecode
      cases hdecode
    simp [bookkeeping, hne, hne.symm]
  intro op hop
  obtain ⟨r, hr, hle⟩ := reaches_mergeAll engine hop
  rcases newest_mergeAll engine (bookkeeping index) op.key with hsame | ⟨op', hop', hkey, hnew⟩
  · have hbound := hold op.key (hbook op hop).1 r (hsame.symm.trans hr)
    rw [(hbook op hop).2] at hle
    exact absurd (hle.trans hbound) (Nat.not_le.mpr hindex)
  · rw [hnew, hdistinct op' hop' op hop hkey]

theorem PassTracks.reflects (h : PassTracks codecs log engine p q pass)
    (hengine : Reflects codecs log p engine) (hlt : log.mark p < log.mark q) :
    Reflects codecs log q (engine.mergeAll (pass.ops ++ bookkeeping (log.mark q))) := by
  have hbook : ∀ op ∈ bookkeeping (log.mark q), Bookkept op.key ∧ op.version = log.mark q := by
    simp [bookkeeping, Bookkept]
  rw [mergeAll_append]
  constructor
  · exact h.below.mergeAll le_rfl fun op hop => (hbook op hop).2.le
  · intro k
    have hnot : ∀ op ∈ bookkeeping (log.mark q), op.key ≠ k.encode := fun op hop heq =>
      not_bookkept k (heq ▸ (hbook op hop).1)
    have hrow := (h.rows k).mono hlt.le
    unfold Stands at hrow ⊢
    rwa [newest_mergeAll_of_ne hnot]
  · intro key hkey
    rcases newest_mergeAll (engine.mergeAll pass.ops) (bookkeeping (log.mark q)) key with hsame | ⟨op, hop, rfl, -⟩
    · rw [hsame] at hkey
      rcases newest_mergeAll engine pass.ops key with hsame' | ⟨op, hop, rfl, -⟩
      · exact hengine.keys key (hsame' ▸ hkey)
      · exact .inl (h.keys op hop)
    · exact .inr (hbook op hop).1
  · refine .inr (newest_bookkeeping (fun key hkey r hr => ?_) hlt)
    rw [newest_mergeAll_of_ne] at hr
    · exact hengine.below key r hr
    · rintro op hop rfl
      obtain ⟨k, hk⟩ := h.keys op hop
      exact not_bookkept k (hk ▸ hkey)

/-- **One batch**, with commands that were applied before among those that are delivered. -/
theorem Tracks.applyBatch {task : ApplyTask} (h : Tracks codecs log p task) (count : Nat) (hs : s ≤ p)
    (hlen : s ≤ log.entries.length) (hids : log.InRange) :
    ∃ task', task.applyBatch codecs ((log.entries.drop s).take count) = some task' ∧
      Tracks codecs log (max p (min (s + count) log.entries.length)) task' := by
  have hstart : PassTracks codecs log task.engine p (max p s) ⟨task.shadow, [], task.watermark⟩ := by
    rw [max_eq_left hs]
    exact ⟨h.twin, h.mark, h.reflects.below, h.reflects.rows, fun op hop => absurd hop not_mem_nil⟩
  obtain ⟨pass, hpass, htracks⟩ := hstart.foldlM count hids hlen
  unfold ApplyTask.applyBatch
  rw [h.mark]
  rw [h.mark] at hpass
  rw [hpass]
  rcases Nat.lt_or_ge p (min (s + count) log.entries.length) with hlt | hge
  · rw [max_eq_right hlt.le] at htracks ⊢
    have hmark := CommandLog.mark_lt_mark hlt (min_le_right _ _)
    refine ⟨⟨task.engine.mergeAll (pass.ops ++ bookkeeping pass.maxIndex), pass.shadow, pass.maxIndex⟩, ?_,
      htracks.twin, htracks.mark, ?_⟩
    · exact if_pos (htracks.mark ▸ hmark)
    · rw [htracks.mark]
      exact htracks.reflects h.reflects hmark
  · rw [max_eq_left hge] at htracks ⊢
    refine ⟨⟨task.engine, pass.shadow, log.mark p⟩, ?_, htracks.twin, rfl, h.reflects⟩
    have hsame : ¬ log.mark p < pass.maxIndex := by
      rw [htracks.mark]
      exact lt_irrefl _
    exact if_neg hsame

structure RunTracks (codecs : RowCodecs) (log : CommandLog) (run : ControlRun) : Prop where
  tracks : Tracks codecs log run.reached run.task
  position : run.position ≤ run.reached
  inside : run.position ≤ log.entries.length

theorem runTracks_start (codecs : RowCodecs) (log : CommandLog) : RunTracks codecs log .start where
  tracks := {
    twin := ⟨rfl, indexed_default, indexed_default⟩, mark := rfl
    reflects := {
      below := fun key r hr => by cases hr
      rows := fun _ => .inl rfl
      keys := fun _ h => absurd rfl h
      marks := .inl ⟨rfl, fun _ => rfl⟩ } }
  position := le_rfl
  inside := Nat.zero_le _

theorem RunTracks.step {run : ControlRun} (h : RunTracks codecs log run) (hids : log.InRange)
    (event : ControlEvent) : ∃ run', run.step codecs log event = some run' ∧ RunTracks codecs log run' := by
  cases event with
  | batch count =>
    obtain ⟨task, hbatch, htracks⟩ := h.tracks.applyBatch count h.position h.inside hids
    refine ⟨⟨task, min (run.position + count) log.entries.length, _⟩, ?_, htracks, le_max_right _ _,
      min_le_right _ _⟩
    simp only [ControlRun.step, hbatch]
    rfl
  | crash redelivered =>
    obtain ⟨task, hseed, htracks⟩ := h.tracks.seed hids
    refine ⟨⟨task, run.position - redelivered, run.reached⟩, ?_, htracks, (Nat.sub_le _ _).trans h.position,
      (Nat.sub_le _ _).trans h.inside⟩
    simp only [ControlRun.step, hseed]
    rfl
  | reclaim floor dropped =>
    simp only [ControlRun.step]
    split_ifs with hdrop
    · exact ⟨_, rfl, ⟨h.tracks.twin, h.tracks.mark, h.tracks.reflects.reclaim hdrop⟩, h.position, h.inside⟩
    · exact ⟨run, rfl, h⟩

theorem RunTracks.steps {run : ControlRun} (events : List ControlEvent) (h : RunTracks codecs log run)
    (hids : log.InRange) : ∃ run', run.steps codecs log events = some run' ∧ RunTracks codecs log run' := by
  induction events generalizing run with
  | nil => exact ⟨run, rfl, h⟩
  | cons event rest ih =>
    obtain ⟨mid, hmid, htracks⟩ := h.step hids event
    obtain ⟨run', hrun', hdone⟩ := ih htracks
    refine ⟨run', ?_, hdone⟩
    rw [ControlRun.steps, foldlM_cons, hmid]
    exact hrun'

open RowWrite

theorem foldlM_applyKeyWrite (codecs : RowCodecs) {rows : List RowWrite} (h : ∀ w ∈ rows, w.Storable)
    (c : Replicated) :
    (rows.map (toKeyWrite codecs)).foldlM (applyKeyWrite codecs) c = some (rows.foldl install c) := by
  induction rows generalizing c with
  | nil => rfl
  | cons w rest ih =>
    rw [map_cons, foldlM_cons, applyKeyWrite_toKeyWrite codecs c (h w mem_cons_self)]
    exact ih (fun w' hw' => h w' (mem_cons_of_mem w hw')) (w.install c)

/-- **The mirror refines the state.** While ids stay below the greatest, the writes derived for a command
lead from the state before it to the state after it. However a log is cut into batches, with the node
starting again between any two of them, with commands delivered more than once and old records reclaimed,
the engine's rows make the state that the commands applied so far make directly. -/
theorem mirror_refines_metadata (codecs : RowCodecs) :
    (∀ (commands : List MetaCommand) (c : MetaCommand), (∀ d ∈ commands, Metadata.IdsInRange d) →
      ∃ rows, (run {} commands).applyAndDeriveMirror c =
          some (((run {} commands).apply c).1, ((run {} commands).apply c).2, rows) ∧
        (rows.map (toKeyWrite codecs)).foldlM (applyKeyWrite codecs) (run {} commands).toReplicated =
          some ((run {} commands).apply c).2.toReplicated) ∧
    ∀ log : CommandLog, (∀ entry ∈ log.entries, Metadata.IdsInRange entry.2) → ∀ events : List ControlEvent,
      ∃ run rebuilt, ControlRun.start.steps codecs log events = some run ∧
        rebuildMetadataFromEngine codecs run.task.engine = some (.ok rebuilt) ∧
        rebuilt.toReplicated = (log.state run.reached).toReplicated := by
  constructor
  · intro commands c hids
    obtain ⟨rows, hderive, hinstall, -, hstorable⟩ := (sound_default.run commands hids).applyAndDeriveMirror c
    refine ⟨rows, hderive, ?_⟩
    rw [foldlM_applyKeyWrite codecs hstorable, hinstall]
  · intro log hids events
    obtain ⟨run, hrun, htracks⟩ := (runTracks_start _ _).steps events hids
    exact ⟨run, _, hrun, htracks.tracks.reflects.rebuild hids, rfl⟩

def sampleSchema : TableSchema where
  partitionKey := "id"
  clusteringKeys := []
  columns := [⟨"id", .string⟩]
  indexes := []
  stream := none
  ttl := none
  pitr := none
  throughput := none
  tags := ∅
  global := none

/-- A table's schema is created and dropped. -/
def dropLog : CommandLog where
  entries := [(1, .createTableSchema "t" sampleSchema), (2, .dropTableSchema "t")]
  ordered := by simp
  positive := by simp
  bounded := by simp [versionMax]

theorem dropLog_idsInRange : ∀ entry ∈ dropLog.entries, Metadata.IdsInRange entry.2 := by
  simp [dropLog, Metadata.IdsInRange, MetaCommand.newIds, MetaCommand.target]

/-- Encodings that write the sample schema as `serde_json` does. -/
noncomputable def sampleCodecs : RowCodecs :=
  let codecs := nonempty_rowCodecs.some
  let text := strBytes ("\x7b\"partition_key\":\"id\",\"clustering_keys\":[]," ++
    "\"columns\":[\x7b\"name\":\"id\",\"ty\":\"String\"\x7d],\"indexes\":[],\"stream\":null,\"ttl\":null,\"pitr\":null,\"throughput\":null,\"tags\":\x7b\x7d\x7d")
  { codecs with schema := codecs.schema.withText sampleSchema text (by decide +kernel) }

theorem mirror_refines_metadata_dropped : (∀ entry ∈ dropLog.entries, Metadata.IdsInRange entry.2) ∧
      ∃ run rebuilt, ControlRun.start.steps sampleCodecs dropLog [.batch 1, .crash 1, .batch 2] = some run ∧
        rebuildMetadataFromEngine sampleCodecs run.task.engine = some (.ok rebuilt) ∧
        rebuilt.toReplicated = (dropLog.state run.reached).toReplicated := by
  exact ⟨dropLog_idsInRange, (mirror_refines_metadata sampleCodecs).2 dropLog dropLog_idsInRange _⟩

/-- The greatest tablet id is given to a tablet, split and dropped, and given again. -/
def greatestIdHistory : List MetaCommand :=
  [.createTablet (.ofNat maxId) (some "u") .whole ["a"],
    .beginSplitInPlace (.ofNat maxId) 1 [5] ⟨4, ["a"]⟩ ⟨5, ["a"]⟩, .cutoverSplit (.ofNat maxId) 2 0,
    .dropTableTablets "u", .createTablet (.ofNat maxId) (some "w") .whole ["a"],
    .beginSplitInPlace (.ofNat maxId) 1 [5] ⟨6, ["a"]⟩ ⟨7, ["a"]⟩]

/-- The second cutover of the greatest id is applied, and its mirror indexes a tablet that is gone. -/
theorem mirror_panics_at_greatest_id :
    ((run {} greatestIdHistory).apply (.cutoverSplit (.ofNat maxId) 2 0)).1 = .applied ∧
      ((run {} greatestIdHistory).applyAndDeriveMirror (.cutoverSplit (.ofNat maxId) 2 0)).isNone := by
  decide +kernel

/-- The rows and tombstones that a lagging node is sent. -/
def syskvImage (engine : MemoryEngine) : List (Key × Option Bytes × Version) :=
  engine.entriesWithTombstones.filter fun row => (decodeKey row.1).isSome

/-- A received row, to be merged at the version that it has. -/
def imageOps (image : List (Key × Option Bytes × Version)) :
    List MergeOp := image.map fun row => ⟨row.1, row.2.2, row.2.1⟩

/-- The received rows are merged into what the node holds. -/
def installSyskvImage (engine : MemoryEngine) (image : List (Key × Option Bytes × Version)) : MemoryEngine :=
  engine.mergeAll (imageOps image)

variable {leader follower : MemoryEngine} {key : Key}

theorem mem_image : op ∈ imageOps (syskvImage leader) ↔ leader.newest op.key = some op ∧
    (decodeKey op.key).isSome := by
  simp only [imageOps, syskvImage, mem_map, mem_filter, mem_entriesWithTombstones]
  constructor
  · rintro ⟨row, hrow, rfl⟩
    exact hrow
  · intro h
    exact ⟨(op.key, op.value, op.version), h, rfl⟩

theorem decodeKey_isSome (k : SysKey) : (decodeKey k.encode).isSome := by
  obtain ⟨kind, id, hdecode, -⟩ := k.decodeKey_encode
  rw [hdecode]
  rfl

theorem decodeKey_isSome_of_bookkept (h : Bookkept key) : (decodeKey key).isSome := by
  rcases h with rfl | rfl
  · rw [decodeKey_appliedIndexKey]
    rfl
  · rw [syskvFormatVersionKey, counterKey, decodeKey_entityKey]
    rfl

/-- A key after an install: the sender's record, unless the receiver holds one that is not older, or the
sender holds none. -/
theorem newest_install (follower leader : MemoryEngine) (hdecode : (decodeKey key).isSome) :
    (∃ r, leader.newest key = some r ∧ (installSyskvImage follower (syskvImage leader)).newest key = some r) ∨
    ((installSyskvImage follower (syskvImage leader)).newest key = follower.newest key ∧
      ∀ r, leader.newest key = some r → ∃ f, follower.newest key = some f ∧ r.version ≤ f.version) := by
  unfold installSyskvImage
  rcases newest_mergeAll follower (imageOps (syskvImage leader)) key with hsame | ⟨op, hop, rfl, hnew⟩
  · refine .inr ⟨hsame, fun r hr => ?_⟩
    obtain ⟨-, rfl, -⟩ := newest_eq_some hr
    obtain ⟨f, hf, hle⟩ := reaches_mergeAll follower (mem_image.mpr ⟨hr, hdecode⟩)
    exact ⟨f, hsame.symm.trans hf, hle⟩
  · exact .inl ⟨op, (mem_image.mp hop).1, hnew⟩

/-- The row of a key after an install reads as the sender's state has it, if the sender still holds a record
of each row that the receiver shows. -/
theorem read_install (hids : log.InRange) (hle : p ≤ q)
    (hfollower : Reflects codecs log p follower) (hleader : Reflects codecs log q leader) (k : SysKey)
    (hkept : follower.read k.encode ≠ none → leader.newest k.encode ≠ none) :
    (installSyskvImage follower (syskvImage leader)).read k.encode = (log.whole codecs q).read k.encode := by
  rw [← (hleader.rows k).read_eq]
  rcases newest_install follower leader (decodeKey_isSome k) with ⟨r, hr, hnew⟩ | ⟨hsame, hnewer⟩
  · rw [MemoryEngine.read, MemoryEngine.read, hnew, hr]
  · rw [MemoryEngine.read, hsame, ← MemoryEngine.read]
    cases hnewest : leader.newest k.encode with
    | none =>
      rw [MemoryEngine.read, MemoryEngine.read, hnewest]
      by_contra hread
      exact hkept hread hnewest
    | some r =>
      -- both hold the record that the same command wrote
      obtain ⟨f, hf, hversion⟩ := hnewer r hnewest
      have hf' := (hfollower.rows k).newest_whole hf
      have hr' := (hleader.rows k).newest_whole hnewest
      rcases CommandLog.newest_whole_later hids codecs hle k.encode with heq | ⟨r'', hr'', hlater⟩
      · rw [hf', hr'] at heq
        rw [MemoryEngine.read, MemoryEngine.read, hf, hnewest, heq]
      · rw [hr'] at hr''
        cases hr''
        have := hfollower.below _ f hf
        exact absurd (hlater.trans_le hversion) (Nat.not_lt.mpr this)

theorem read_install_of_none {k : SysKey} (hnone : leader.newest k.encode = none) :
    (installSyskvImage follower (syskvImage leader)).read k.encode = follower.read k.encode := by
  rcases newest_install follower leader (decodeKey_isSome k) with ⟨r, hr, -⟩ | ⟨hsame, -⟩
  · rw [hnone] at hr
    cases hr
  · rw [MemoryEngine.read, hsame, ← MemoryEngine.read]

/-- An install leaves the sender's rows, and of the receiver those that the sender holds no record of. -/
theorem stores_install (hids : log.InRange) (hle : p ≤ q)
    (hfollower : Reflects codecs log p follower) (hleader : Reflects codecs log q leader) :
    ∃ r, Stores codecs (installSyskvImage follower (syskvImage leader)) r ∧ ∀ k : SysKey, r.rowAt k =
      if follower.read k.encode ≠ none ∧ leader.newest k.encode = none then (log.state p).toReplicated.rowAt k
      else (log.state q).toReplicated.rowAt k := by
  have hstores := hfollower.stores hids
  have hkept : ∀ entry ∈ follower.entries.filter fun entry => (leader.newest entry.1).isNone,
      follower.read entry.1 = some entry.2 :=
    fun entry hentry => (mem_entries hstores.bounded).mp (mem_of_mem_filter hentry)
  obtain ⟨rows, -, hreads, hcovers⟩ := hstores.foldlM_applyPut {} hkept
  have hmem (k : SysKey) : k ∈ rows.map key ↔ follower.read k.encode ≠ none ∧ leader.newest k.encode = none := by
    simp [← hcovers, mem_entries hstores.bounded, Option.ne_none_iff_exists']
  have hrow := fun k => rowAt_foldl_install (c := (log.state q).toReplicated) hreads k
  simp only [hmem] at hrow
  refine ⟨_, ⟨?_, fun k => ?_, ?_, ?_⟩, hrow⟩
  · have hbelow : Below (installSyskvImage follower (syskvImage leader)) (log.mark q) :=
      hfollower.below.mergeAll (CommandLog.mark_mono hle) fun op hop =>
        hleader.below op.key op (mem_image.mp hop).1
    exact hbelow.bounded (CommandLog.mark_le_versionMax q)
  · unfold RowStored
    rw [hrow]
    split_ifs with hlost
    · rw [read_install_of_none hlost.2]
      exact hstores.rows k
    · rw [read_install hids hle hfollower hleader k fun hread hnone => hlost ⟨hread, hnone⟩]
      exact CommandLog.rowStored_whole hids q k
  · intro key hread
    have hnewest : (installSyskvImage follower (syskvImage leader)).newest key ≠ none := by
      intro hnone
      exact hread (by rw [MemoryEngine.read, hnone]; rfl)
    rcases MemoryEngine.newest_mergeAll follower (imageOps (syskvImage leader)) key with hsame | ⟨op, hop, rfl, -⟩
    · exact hfollower.keys key (hsame ▸ hnewest)
    · exact hleader.keys op.key (by simp [(mem_image.mp hop).1])
  · intro key v hkey hv
    rcases newest_install follower leader (decodeKey_isSome_of_bookkept hkey) with
      ⟨r, hr, hnew⟩ | ⟨hsame, -⟩
    · refine hleader.value_bookkept hkey ?_
      rwa [MemoryEngine.read, hr, ← hnew]
    · refine hfollower.value_bookkept hkey ?_
      rwa [MemoryEngine.read, ← hsame]

theorem versioned_install (hfollower : Reflects codecs log p follower) (hleader : Reflects codecs log q leader) :
    Versioned (installSyskvImage follower (syskvImage leader)) := by
  rcases hleader.marks with ⟨-, hempty⟩ | hmarks
  · -- nothing is sent
    have hnil : imageOps (syskvImage leader) = [] :=
      eq_nil_iff_forall_not_mem.mpr fun op hop => by simpa [hempty] using (mem_image.mp hop).1
    rw [installSyskvImage, hnil]
    exact hfollower.versioned
  · right
    simp only [bookkeeping, forall_mem_cons] at hmarks
    rcases newest_install follower leader
      (decodeKey_isSome_of_bookkept (.inr rfl : Bookkept syskvFormatVersionKey))
      with ⟨r, hr, hnew⟩ | ⟨hsame, hnewer⟩
    · rw [MemoryEngine.read, hnew, ← hr, hmarks.2.1]
      rfl
    · obtain ⟨f, hf, -⟩ := hnewer _ hmarks.2.1
      rcases hfollower.marks with ⟨-, hempty⟩ | hmarks'
      · rw [hempty] at hf
        cases hf
      · simp only [bookkeeping, forall_mem_cons] at hmarks'
        rw [MemoryEngine.read, hsame, hmarks'.2.1]
        rfl

/-- A row that the receiver shows and the sender holds no record of is another one in their states. -/
theorem rowAt_ne_of_lost (hids : log.InRange) (hle : p ≤ q) (hfollower : Reflects codecs log p follower)
    (hleader : Reflects codecs log q leader) (hread : follower.read k.encode ≠ none)
    (hnone : leader.newest k.encode = none) :
    (log.state p).toReplicated.rowAt k ≠ (log.state q).toReplicated.rowAt k := by
  intro hsame
  have hvalue : ((log.state q).toReplicated.rowAt k).value codecs ≠ none := by
    rcases (hfollower.stores hids).rows k with hstored | ⟨hread', -⟩
    · rw [← hsame, ← hstored]
      simpa using hread
    · exact absurd hread' hread
  rcases hleader.rows k with heq | ⟨-, r, hr, hdead, -⟩
  · rw [(hfollower.rows k).read_eq] at hread
    rcases CommandLog.newest_whole_later hids codecs hle k.encode with hwhole | ⟨r, hr, -⟩
    · rw [MemoryEngine.read, ← hwhole, ← heq, hnone] at hread
      exact hread rfl
    · rw [← heq, hnone] at hr
      cases hr
  · rcases CommandLog.newest_whole hids q k with ⟨version, hnew⟩ | ⟨hnone', -⟩
    · rw [hr] at hnew
      cases hnew
      exact hvalue hdead
    · rw [hr] at hnone'
      cases hnone'

/-- **A received image brings a node to the sender's state** just if the sender still holds a record, value
or tombstone, of every row that the receiver shows. -/
theorem image_install_catches_up (codecs : RowCodecs) (log : CommandLog)
    (hids : ∀ entry ∈ log.entries, Metadata.IdsInRange entry.2) (leaderEvents followerEvents : List ControlEvent)
    (leader follower : ControlRun) (hleader : ControlRun.start.steps codecs log leaderEvents = some leader)
    (hfollower : ControlRun.start.steps codecs log followerEvents = some follower)
    (hbehind : follower.reached ≤ leader.reached) :
    (∃ rebuilt, rebuildMetadataFromEngine codecs
      (installSyskvImage follower.task.engine (syskvImage leader.task.engine)) = some (.ok rebuilt) ∧
        rebuilt.toReplicated = (log.state leader.reached).toReplicated) ↔
      ∀ k : SysKey, follower.task.engine.read k.encode ≠ none → leader.task.engine.newest k.encode ≠ none := by
  have hreflects : ∀ {events : List ControlEvent} {run : ControlRun}, ControlRun.start.steps codecs log
      events = some run → Reflects codecs log run.reached run.task.engine := by
    intro events run hrun
    obtain ⟨run', hrun', htracks⟩ := (runTracks_start codecs log).steps events hids
    rw [hrun] at hrun'
    cases hrun'
    exact htracks.tracks.reflects
  have hl := hreflects hleader
  have hf := hreflects hfollower
  obtain ⟨r, hstores, hrows⟩ := stores_install hids hbehind hf hl
  have hrebuild := hstores.rebuild (versioned_install hf hl)
  constructor
  · rintro ⟨rebuilt, hrebuilt, hsame⟩ k hread hnone
    rw [hrebuild] at hrebuilt
    cases hrebuilt
    have hrow := hrows k
    rw [if_pos ⟨hread, hnone⟩, show r = _ from hsame] at hrow
    exact rowAt_ne_of_lost hids hbehind hf hl hread hnone hrow.symm
  · intro hkept
    exact ⟨_, hrebuild, RowWrite.ext_rows fun k =>
      (hrows k).trans (if_neg fun hlost => hkept k hlost.1 hlost.2)⟩

/-- A node's run over the log that creates and drops a schema. -/
noncomputable def sampleRun (events : List ControlEvent) : ControlRun :=
  (ControlRun.start.steps sampleCodecs dropLog events).getD .start

theorem steps_sampleRun (events : List ControlEvent) :
    ControlRun.start.steps sampleCodecs dropLog events = some (sampleRun events) := by
  obtain ⟨run, hrun, -⟩ := (runTracks_start _ _).steps events dropLog_idsInRange
  rw [sampleRun, hrun]
  rfl

theorem image_install_catches_up_dropped : (sampleRun [.batch 1]).reached ≤ (sampleRun [.batch 2]).reached ∧
      ∃ rebuilt, rebuildMetadataFromEngine sampleCodecs
          (installSyskvImage (sampleRun [.batch 1]).task.engine (syskvImage (sampleRun [.batch 2]).task.engine)) =
            some (.ok rebuilt) ∧ rebuilt.toReplicated =
            (dropLog.state (sampleRun [.batch 2]).reached).toReplicated := by
  have hbehind : (sampleRun [.batch 1]).reached ≤ (sampleRun [.batch 2]).reached := by decide +kernel
  have hrecords : ((sampleRun [.batch 1]).task.engine.data.records.all fun r =>
      ((sampleRun [.batch 2]).task.engine.newest r.key).isSome) = true := by decide +kernel
  refine ⟨hbehind, (image_install_catches_up sampleCodecs dropLog dropLog_idsInRange _ _ _ _ (steps_sampleRun
    [.batch 2]) (steps_sampleRun [.batch 1]) hbehind).mpr fun k hread hnone => ?_⟩
  cases hnewest : (sampleRun [.batch 1]).task.engine.newest k.encode with
  | none => exact hread (by rw [MemoryEngine.read, hnewest]; rfl)
  | some r =>
    obtain ⟨hmem, hkey, -⟩ := MemoryEngine.newest_eq_some hnewest
    have hsome := all_eq_true.mp hrecords r hmem
    rw [hkey, hnone] at hsome
    cases hsome

/-- A schema that the sender dropped, and whose tombstone it reclaimed, is still there after the install. -/
theorem dropped_row_survives_install : ∃ leader follower rebuilt, ControlRun.start.steps sampleCodecs dropLog
        [.batch 2, .reclaim 2 [(schemaKey "t", 1), (schemaKey "t", 2)]] = some leader ∧
      ControlRun.start.steps sampleCodecs dropLog [.batch 1] = some follower ∧ follower.reached ≤ leader.reached ∧
      rebuildMetadataFromEngine sampleCodecs
        (installSyskvImage follower.task.engine (syskvImage leader.task.engine)) = some (.ok rebuilt) ∧
      rebuilt.schemas.contains "t" = true ∧ (dropLog.state leader.reached).schemas.contains "t" = false := by
  have hrebuilt : ((rebuildMetadataFromEngine sampleCodecs (installSyskvImage (sampleRun [.batch 1]).task.engine
      (syskvImage (sampleRun [.batch 2,
      .reclaim 2 [(schemaKey "t", 1), (schemaKey "t", 2)]]).task.engine))).any fun result =>
        result.toOption.any fun m => m.schemas.contains "t") = true := by decide +kernel
  obtain ⟨result, hresult, hany⟩ := (Option.any_eq_true _ _).mp hrebuilt
  cases result with
  | error e => cases hany
  | ok rebuilt =>
    exact ⟨_, _, rebuilt, steps_sampleRun _, steps_sampleRun _, by decide +kernel, hresult, hany,
      by decide +kernel⟩

namespace Metadata

variable {m m' : Metadata}

/-- A write of a row to the state; the index is left as it is. -/
def applyKeyWrite (codecs : RowCodecs) (m : Metadata) (w : KeyWrite) : Option Metadata :=
  (Catalog.applyKeyWrite codecs m.toReplicated w).map fun r => { m with toReplicated := r }

/-- The index of a state that was read back and has not been rebuilt. -/
def Unindexed (m : Metadata) : Prop := m.tabletIndex.total = 0 ∧ m.tabletIndex.byTable = ∅

/-- The index counts another number of tablets than there are, so that it is not used. -/
def Stale (m : Metadata) : Prop := m.tabletIndex.total ≠ m.tablets.size

/-- The states a view goes through: read back from storage, then commands and writes of rows in any order. A
write that changes which tablets a table has finds the index not yet built or leaves it stale, and a built
index that is stale stays so until a command rebuilds it. -/
inductive View (codecs : RowCodecs) : Metadata → Prop
  | decoded (r : Replicated) : View codecs (ofReplicated r)
  | command {m : Metadata} (c : MetaCommand) : View codecs m →
      ((m.prepared c).Stale → m.Unindexed ∨ (m.apply c).2.Stale) → View codecs (m.apply c).2
  | keyWrite {m m' : Metadata} (w : KeyWrite) : View codecs m → m.applyKeyWrite codecs w = some m' →
      (m.Unindexed ∨ (∀ id : TabletId, m'.tablets[id]?.map Tablet.table = m.tablets[id]?.map Tablet.table) ∨
      m'.Stale) → View codecs m'

theorem Stale.not_valid (h : m.Stale) : ¬ m.tabletIndex.isValid m.tablets.size :=
  fun hvalid => h (of_decide_eq_true hvalid)

theorem Stale.prepared (h : m.Stale) (c : MetaCommand) (hfresh : ¬ (m.prepared c).Stale) :
    (m.prepared c).Indexed := by
  cases c with
  | createTablet =>
    unfold Metadata.prepared Metadata.ensureTabletIndex
    rw [if_neg h.not_valid]
    exact .inl ⟨TabletIndex.total_foldl_add _ _, TabletIndex.exact_build m.tablets⟩
  | _ => exact absurd h hfresh

theorem View.indexed {codecs : RowCodecs} (h : View codecs m) : m.Indexed ∨ m.Stale := by
  induction h with
  | decoded r => exact .inl (.inr ⟨rfl, rfl⟩)
  | @command m c _ hstale ih =>
    by_cases hfresh : (m.prepared c).Stale
    · rcases hstale hfresh with hunindexed | hstale
      · exact .inl (Indexed.apply (.inr hunindexed) c)
      · exact .inr hstale
    · exact .inl ((ih.elim (fun h => h.prepared c) fun h => h.prepared c hfresh).step (m.apply_tabletStep c))
  | keyWrite w _ hw hkeeps ih =>
    obtain ⟨r, -, rfl⟩ := Option.map_eq_some_iff.mp hw
    rcases hkeeps with hunindexed | htables | hstale
    · exact .inl (.inr hunindexed)
    · exact ih.imp (fun h => h.of_tables rfl htables) fun h heq => h (heq.trans (size_of_tables htables))
    · exact .inr hstale

/-- **Answers of the tablet index**: in every state of a view the tablets of a table are listed exactly, in
ascending order of their ids. -/
theorem index_exact_in_views {codecs : RowCodecs} (h : View codecs m) (table : TableName) :
    (∀ id t, (id, t) ∈ m.tabletsForTable table ↔ m.tablets[id]? = some t ∧ t.table = some table) ∧
      (m.tabletsForTable table).Pairwise (fun a b => a.1 < b.1) ∧
      (m.hasTableTablet table ↔ ∃ (id : TabletId) (t : Tablet), m.tablets[id]? = some t ∧
        t.table = some table) := by
  have hscan : m.tabletsForTable table = scanForTable m.tablets table := by
    rcases h.indexed with hindexed | hstale
    · exact hindexed.tabletsForTable table
    · exact if_neg hstale.not_valid
  have hmem (id : TabletId) (t : Tablet) :
      (id, t) ∈ m.tabletsForTable table ↔ m.tablets[id]? = some t ∧ t.table = some table := by
    rw [hscan, mem_scanForTable]
  refine ⟨hmem, ?_, ?_⟩
  · rw [hscan]
    refine (Std.ExtTreeMap.ordered_keys_toList.filter _).imp ?_
    exact fun hab => Std.compare_eq_lt.mp hab
  · rcases h.indexed with hindexed | hstale
    · exact hindexed.hasTableTablet table
    · unfold Metadata.hasTableTablet
      rw [if_neg hstale.not_valid]
      simp only [Bool.not_eq_true', isEmpty_eq_false_iff_exists_mem, Prod.exists, hmem]

/-- The put of a tablet's row. -/
noncomputable def tabletPut (id : TabletId) (table : TableName) (range : Tablet.KeyRange) : KeyWrite :=
  RowWrite.toKeyWrite sampleCodecs (.tablet id (some (.withTable id (some table) range [])))

theorem applyKeyWrite_tabletPut (m : Metadata) (id : TabletId) (table : TableName) (range : Tablet.KeyRange) :
    m.applyKeyWrite sampleCodecs (tabletPut id table range) =
      some { m with toReplicated.tablets := m.tablets.insert id (.withTable id (some table) range []) } := by
  rw [applyKeyWrite, tabletPut,
    applyKeyWrite_toKeyWrite sampleCodecs _ (show RowWrite.Storable (.tablet _ _) from trivial)]
  rfl

/-- Tablet 1 of a table is put before the index is built, tablet 3 after it was. -/
theorem index_exact_in_views_created : ∃ m₁ m₂ : Metadata,
    (ofReplicated {}).applyKeyWrite sampleCodecs (tabletPut 1 "t" ⟨[], some [1]⟩) = some m₁ ∧
    (m₁.apply (.createTablet 2 (some "u") .whole [])).2.applyKeyWrite sampleCodecs
      (tabletPut 3 "t" ⟨[1], none⟩) = some m₂ ∧
    m₂.hasTableTablet "t" ∧ (m₂.tabletsForTable "t").Pairwise (fun a b => a.1 < b.1) ∧
    ∀ id t, (id, t) ∈ m₂.tabletsForTable "t" ↔ m₂.tablets[id]? = some t ∧ t.table = some "t" := by
  refine ⟨_, _, applyKeyWrite_tabletPut .., applyKeyWrite_tabletPut .., ?_⟩
  have hput := View.keyWrite (tabletPut 1 "t" ⟨[], some [1]⟩) (.decoded {}) (applyKeyWrite_tabletPut ..)
    (.inl ⟨rfl, rfl⟩)
  have hbuilt := hput.command (.createTablet 2 (some "u") .whole []) fun h =>
    absurd h (by unfold Stale; decide +kernel)
  have hview := hbuilt.keyWrite (tabletPut 3 "t" ⟨[1], none⟩) (applyKeyWrite_tabletPut ..)
    (.inr (.inr (by unfold Stale; decide +kernel)))
  obtain ⟨hmem, hordered, hhas⟩ := index_exact_in_views hview "t"
  exact ⟨hhas.mpr ⟨3, _, Std.ExtTreeMap.getElem?_insert_self, rfl⟩, hordered, hmem⟩

/-- Tablet 1 makes way for tablet 2 behind the index, which still counts one; the tablets 2 and 3 then come
in the order of their ids and not of their ranges. -/
theorem key_write_misleads_index : ∃ m₁ m₂ m₃ : Metadata,
    (apply {} (.createTablet 1 (some "t") .whole [])).2.applyKeyWrite sampleCodecs (.delete (tabletKey 1)) =
    some m₁ ∧ m₁.applyKeyWrite sampleCodecs (tabletPut 2 "u" ⟨[1], none⟩) = some m₂ ∧
    m₂.applyKeyWrite sampleCodecs (tabletPut 3 "u" ⟨[], some [1]⟩) = some m₃ ∧
    m₂.tablets[(2 : TabletId)]?.bind Tablet.table = some "u" ∧ m₂.tabletsForTable "u" = [] ∧
      ¬ m₂.hasTableTablet "u" ∧
    (m₃.tabletsForTable "u").map (fun row => row.2.range.start) = [[1], []] := by
  refine ⟨_, _, _, rfl, applyKeyWrite_tabletPut .., applyKeyWrite_tabletPut .., ?_, ?_, ?_, ?_⟩ <;> decide +kernel

end Metadata

end AnimusDb.Catalog
