import AnimusDb.LsmTable
import Mathlib.Data.List.Sort

/-! The storage engine: a memtable over levels of sorted tables. Every operation is the section the code runs
under its lock, or the pure work between two of them; the sequential flush and compaction put the sections
in a row. -/

open OrderedList (Ordered)

namespace AnimusDb.Lsm

/-- The options that decide what a flush or a compaction writes. -/
structure LsmOptions where
  compactionTrigger : Nat
  targetTableBytes : Nat
  tombstoneGraceVersions : Version

structure Manifest where
  nextSeq : Nat
  tables : List SsTable
  maxVersion : Version
  walSegments : List Nat

/-- The state behind the engine's lock; `heldSnapshots` is the multiset of pinned versions. -/
structure Inner where
  memtable : Store
  memtableBytes : Nat
  manifest : Manifest
  allocSeq : Nat
  heldSnapshots : List Version

def Inner.empty : Inner := ⟨.empty, 0, ⟨0, [], 0, []⟩, 0, []⟩

variable (fmt : TableFormat) (inner : Inner)

def Inner.memtableLatestVersionOf (key : Key) : Option Version :=
  (inner.memtable.records.filter fun r => r.key = key).getLast?.map (·.version)

/-- The version of one source folded into the best so far. -/
def considerLatest (key : Key) (best : Option Version) (t : SsTable) : Option Version :=
  if best.any fun b => (t.meta fmt).maxVersion ≤ b then best
  else if !(t.meta fmt).mayContain key then best
  else match t.latest key with
    | some r => some (best.elim r.version (max · r.version))
    | none => best

/-- The highest version recorded for `key` anywhere, tombstones included. -/
def Inner.latestVersionOf (key : Key) : Option Version :=
  inner.manifest.tables.reverse.foldl (considerLatest fmt key) (inner.memtableLatestVersionOf key)

/-- The hit of one table folded into the best so far. -/
def considerTable (key : Key) (version : Version) (best : Option Record) (t : SsTable) : Option Record :=
  if version < (t.meta fmt).minVersion ∨ best.any fun b => (t.meta fmt).maxVersion ≤ b.version then best
  else if !(t.meta fmt).mayContain key then best
  else match t.getAt key version with
    | some r => if best.all fun b => b.version < r.version then some r else best
    | none => best

structure VersionedValue where
  version : Version
  value : Value
deriving DecidableEq

/-- A record shown to a reader; a tombstone shows nothing. -/
def live (r : Record) : Option VersionedValue := r.value.map fun value => ⟨r.version, value⟩

/-- Read `key` as of `version` across the memtable and the tables. -/
def Inner.readAt (key : Key) (version : Version) : Option VersionedValue :=
  (inner.manifest.tables.reverse.foldl (considerTable fmt key version)
    (inner.memtable.newestAt key version)).bind live

/-- Whether a table's key range meets a half-open range. -/
def sstableOverlaps (t : SsTableMeta) (start : Key) (stop : Option Key) : Bool :=
  match t.minKey, t.maxKey with
  | some minKey, some maxKey => start ≤ maxKey && stop.all fun e => minKey < e
  | _, _ => false

/-- A strictly greater version keeps its place; otherwise the later source wins. -/
def mergeWinner (merged : List Record) (r : Record) : List Record :=
  OrderedList.upsert Mvcc.Record.key (fun cur r => if r.version < cur.version then cur else r) r merged

/-- The winning record as of `version` of every key in the range, tombstones included, by key. -/
def Inner.mergedAt (start : Key) (stop : Option Key) (version : Version) : List Record :=
  let memEntries := (inner.memtable.keys.filter fun k => InRange start stop k).filterMap fun k =>
    inner.memtable.newestAt k version
  let merged := inner.manifest.tables.foldl (fun merged t =>
    if sstableOverlaps (t.meta fmt) start stop then (t.scanAt start stop version).foldl mergeWinner merged
    else merged) []
  memEntries.foldl mergeWinner merged

/-- A row as a scan shows it. -/
def liveRow (r : Record) : Option (Key × VersionedValue) := (live r).map fun v => (r.key, v)

/-- A row with its tombstone. -/
def tombstoneRow (r : Record) : Key × Option Value × Version := (r.key, r.value, r.version)

/-- The errors of a call on a healthy disk. -/
inductive CallError where
  | invalidRange
  | nonMonotonicVersion (got latest : Version)
deriving DecidableEq

def Inner.get (key : Key) : Option VersionedValue := inner.readAt fmt key versionMax

def Inner.getAt (key : Key) (version : Version) : Option VersionedValue := inner.readAt fmt key version

def Inner.scanAt (start stop : Key) (version : Version) : Except CallError (List (Key × VersionedValue)) :=
  if stop < start then .error .invalidRange
  else .ok ((inner.mergedAt fmt start (some stop) version).filterMap liveRow)

def Inner.scan (start stop : Key) : Except CallError (List (Key × VersionedValue)) :=
  inner.scanAt fmt start stop versionMax

def Inner.entriesAt (version : Version) : List (Key × VersionedValue) :=
  (inner.mergedAt fmt [] none version).filterMap liveRow

def Inner.entries : List (Key × VersionedValue) := inner.entriesAt fmt versionMax

def Inner.entriesWithTombstones : List (Key × Option Value × Version) :=
  (inner.mergedAt fmt [] none versionMax).map tombstoneRow

def Inner.scanWithTombstones (start stop : Key) : List (Key × Option Value × Version) :=
  (inner.mergedAt fmt start (some stop) versionMax).map tombstoneRow

def Inner.latestVersion : Version := inner.manifest.maxVersion

/-- A single mutation within a write batch. -/
inductive WriteOp where
  | put (key : Key) (value : Value)
  | delete (key : Key)
  | deleteRange (start stop : Key)
deriving DecidableEq

/-- A merge carries its own version; it has the shape of the record it writes. -/
abbrev MergeOp := Record

inductive WriteCall where
  | put (key : Key) (value : Value) (version : Version)
  | merge (key : Key) (value : Value) (version : Version)
  | mergeTombstone (key : Key) (version : Version)
  | mergeBatch (ops : List MergeOp)
  | delete (key : Key) (version : Version)
  | deleteRange (start stop : Key) (version : Version)
  | writeBatch (version : Version) (ops : List WriteOp)

/-- What a write returns: nothing, or whether a merge took effect. -/
inductive Reply where
  | unit
  | applied (effect : Bool)
deriving DecidableEq

def Inner.applyPut (inner : Inner) (key : Key) (value : Value) (version : Version) : Inner :=
  { inner with
    memtableBytes := inner.memtableBytes + (key.length + value.length + 16)
    memtable := inner.memtable.insert ⟨key, version, some value⟩ }

def Inner.applyDelete (inner : Inner) (version : Version) (key : Key) : Inner :=
  { inner with
    memtableBytes := inner.memtableBytes + (key.length + 16)
    memtable := inner.memtable.insert ⟨key, version, none⟩ }

def Inner.applyBatchOp (version : Version) (inner : Inner) : BatchOp → Inner
  | .put key value => inner.applyPut key value version
  | .delete key => inner.applyDelete version key
  | .deleteKeys keys => keys.foldl (Inner.applyDelete · version) inner

def Inner.applyMergeRec (inner : Inner) (rec : MergeRec) : Inner :=
  match rec.value with
  | some value => inner.applyPut rec.key value rec.version
  | none => inner.applyDelete rec.version rec.key

/-- The memtable side of a logged record. -/
def Inner.applyRecord (inner : Inner) : WalRecord → Inner
  | .put key value version => inner.applyPut key value version
  | .delete key version => inner.applyDelete version key
  | .deleteRange _ _ keys version => keys.foldl (Inner.applyDelete · version) inner
  | .batch version ops => ops.foldl (Inner.applyBatchOp version) inner
  | .mergeBatch ops => ops.foldl Inner.applyMergeRec inner

/-- The highest version a logged record carries. -/
def recordMaxVersion : WalRecord → Version
  | .put _ _ version | .delete _ version | .deleteRange _ _ _ version | .batch version _ => version
  | .mergeBatch ops => (ops.map (·.version)).foldl max 0

def Inner.setMaxVersion (inner : Inner) (version : Version) : Inner :=
  { inner with manifest := { inner.manifest with maxVersion := version } }

/-- Whether the call raises the watermark to its version; the others overwrite it. -/
def WriteCall.raises : WriteCall → Bool
  | .merge .. | .mergeTombstone .. | .mergeBatch .. => true
  | _ => false

/-- What the call does to the engine once its record is durable. -/
def WriteCall.apply (call : WriteCall) (record : WalRecord) (inner : Inner) : Inner :=
  let version := recordMaxVersion record
  (inner.applyRecord record).setMaxVersion (if call.raises then max inner.manifest.maxVersion version else version)

/-- Live keys in `[start, stop)`, for expanding a range delete. -/
def Inner.liveKeysInRange (start stop : Key) (version : Version) : List Key :=
  (inner.mergedAt fmt start (some stop) version).filterMap fun r => r.value.map fun _ => r.key

def Inner.expandOp (version : Version) : WriteOp → BatchOp
  | .put key value => .put key value
  | .delete key => .delete key
  | .deleteRange start stop => .deleteKeys (inner.liveKeysInRange fmt start stop version)

/-- One op of a merge batch: it wins if it is newer than the engine and than the batch so far. -/
def Inner.considerMerge (st : List (Key × Version) × List MergeRec) (op : MergeOp) :
    List (Key × Version) × List MergeRec :=
  let prior := (OrderedList.lookup Prod.fst op.key st.1).map Prod.snd
  let current := match inner.latestVersionOf fmt op.key, prior with
    | some a, some b => some (max a b)
    | some a, none => some a
    | none, prior => prior
  if current.any fun c => op.version ≤ c then st
  else (OrderedList.insert Prod.fst (op.key, op.version) st.1, st.2 ++ [⟨op.key, op.value, op.version⟩])

def Inner.mergeWinners (ops : List MergeOp) : List MergeRec :=
  (ops.foldl (inner.considerMerge fmt) ([], [])).2

def Inner.checkMonotonic (version : Version) : Except CallError Unit :=
  if version ≤ inner.manifest.maxVersion then
    .error (.nonMonotonicVersion version inner.manifest.maxVersion)
  else .ok ()

def WriteOp.inverted : WriteOp → Bool
  | .deleteRange start stop => stop < start
  | _ => false

/-- Everything before the log: the checks, the merge decision, the expansion of range deletes. A call that
has nothing to log returns at once. -/
def WriteCall.plan : WriteCall → Except CallError (Reply × Option WalRecord)
  | .put key value version => do
    inner.checkMonotonic version
    return (.unit, some (.put key value version))
  | .merge key value version =>
    if (inner.latestVersionOf fmt key).any fun cur => version ≤ cur then .ok (.applied false, none)
    else .ok (.applied true, some (.put key value version))
  | .mergeTombstone key version =>
    if (inner.latestVersionOf fmt key).any fun cur => version ≤ cur then .ok (.applied false, none)
    else .ok (.applied true, some (.delete key version))
  | .mergeBatch ops =>
    let winners := inner.mergeWinners fmt ops
    if winners.isEmpty then .ok (.unit, none) else .ok (.unit, some (.mergeBatch winners))
  | .delete key version => do
    inner.checkMonotonic version
    return (.unit, some (.delete key version))
  | .deleteRange start stop version =>
    if stop < start then .error .invalidRange
    else do
      inner.checkMonotonic version
      return (.unit, some (.deleteRange start stop (inner.liveKeysInRange fmt start stop version) version))
  | .writeBatch version ops =>
    if ops.any WriteOp.inverted then .error .invalidRange
    else do
      inner.checkMonotonic version
      return (.unit, some (.batch version (ops.map (inner.expandOp fmt version))))

/-- A write on its own, the log having taken the record. -/
def Inner.write (call : WriteCall) : Except CallError Reply × Inner :=
  match call.plan fmt inner with
  | .error e => (.error e, inner)
  | .ok (reply, none) => (.ok reply, inner)
  | .ok (reply, some record) => (.ok reply, call.apply record inner)

/-- Pin a version: compaction keeps what a read as of it sees. -/
def Inner.holdSnapshot (inner : Inner) (version : Version) : Inner :=
  { inner with heldSnapshots := version :: inner.heldSnapshots }

def Inner.releaseSnapshot (inner : Inner) (version : Version) : Inner :=
  { inner with heldSnapshots := inner.heldSnapshots.erase version }

def recordBytes (r : Record) : Nat := r.key.length + r.value.elim 0 List.length + 16

def memtableBytesOf (memtable : Store) : Nat := (memtable.records.map recordBytes).sum

/-- The memtable and the sequence number a flush takes, unless there is too little to flush. -/
def Inner.flushSnapshot (inner : Inner) (minBytes : Nat) : Option (SsTable × Inner) :=
  if inner.memtable.records.isEmpty ∨ inner.memtableBytes < minBytes then none
  else some (⟨inner.allocSeq + 1, 0, inner.memtable⟩, { inner with allocSeq := inner.allocSeq + 1 })

/-- The manifest that names the flushed table and the surviving log segments. -/
def Manifest.withFlushed (m : Manifest) (t : SsTable) (surviving : List Nat) : Manifest :=
  let at' := partitionPoint (fun u : SsTable => u.seq < t.seq) m.tables
  { m with
    nextSeq := max m.nextSeq t.seq, tables := m.tables.take at' ++ t :: m.tables.drop at',
    walSegments := surviving }

/-- Install a manifest and remove exactly the flushed slots from the memtable. -/
def Inner.commitFlush (inner : Inner) (manifest : Manifest) (flushed : Store) : Inner :=
  let memtable := inner.memtable.filter fun r => !flushed.records.any fun f => f.slot = r.slot
  { inner with manifest, memtable, memtableBytes := memtableBytesOf memtable }

/-- A flush on its own. -/
def Inner.flushIfOver (inner : Inner) (minBytes : Nat) (surviving : List Nat) : Inner :=
  match inner.flushSnapshot minBytes with
  | none => inner
  | some (t, inner) => inner.commitFlush (inner.manifest.withFlushed t surviving) t.records

structure CompactionPlan where
  sourceLevel : Nat
  l0Merge : Bool

def CompactionPlan.targetLevel (plan : CompactionPlan) : Nat :=
  if plan.l0Merge then 0 else plan.sourceLevel + 1

/-- Whether a table's key range meets the inclusive range. -/
def rangesOverlap (m : SsTableMeta) (lo hi : Key) : Bool :=
  match m.minKey, m.maxKey with
  | some mlo, some mhi => mlo ≤ hi && lo ≤ mhi
  | _, _ => false

def u64Max : Nat := 2 ^ 64 - 1

def saturatingAdd (a b : Nat) : Nat := min (a + b) u64Max

/-- Add tables, smallest first, while the next is no larger than all chosen so far. -/
def growGroup (sum : Nat) : List SsTableMeta → List SsTableMeta
  | [] => []
  | m :: rest => if m.fileSize ≤ sum then m :: growGroup (saturatingAdd sum m.fileSize) rest else []

/-- The level-0 tables a merge within level 0 consumes. -/
def l0MergeGroup (opts : LsmOptions) (tables : List SsTableMeta) : List Nat :=
  let l0 := tables.filter fun m => m.level = 0
  if l0.length < 2 then []
  else
    let sorted := l0.insertionSort fun a b => toLex (a.fileSize, a.seq) ≤ toLex (b.fileSize, b.seq)
    let minN := min (max (l0.length + 2 - opts.compactionTrigger) 2) l0.length
    let chosen := sorted.take minN
    let sum := chosen.foldl (fun a m => saturatingAdd a m.fileSize) 0
    (chosen ++ growGroup sum (sorted.drop minN)).map (·.seq)

/-- Widen key bounds by the range of one more table. -/
def widenBounds (fmt : TableFormat) (bounds : Option (Key × Key)) (t : SsTable) : Option (Key × Key) :=
  match (t.meta fmt).minKey, (t.meta fmt).maxKey with
  | some lo, some hi => some (bounds.elim (lo, hi) fun (slo, shi) => (min slo lo, max shi hi))
  | _, _ => bounds

/-- The union of the key ranges of the tables. -/
def keyBounds (fmt : TableFormat) (tables : List SsTable) : Option (Key × Key) :=
  tables.foldl (widenBounds fmt) none

variable (opts : LsmOptions) (plan : CompactionPlan)

/-- The tables a compaction merges. -/
def compactionInputs (tables : List SsTable) : List SsTable :=
  if plan.l0Merge then
    let group := l0MergeGroup opts (tables.map (SsTable.meta fmt))
    tables.filter fun t => t.level = 0 ∧ t.seq ∈ group
  else
    let source := tables.filter fun t => t.level = plan.sourceLevel
    match keyBounds fmt source with
    | some (slo, shi) =>
      source ++ tables.filter fun t => t.level = plan.targetLevel ∧ rangesOverlap (t.meta fmt) slo shi
    | none => source

/-- Key ranges of the tables that may hold an older value than the inputs. -/
def deeperRanges (tables : List SsTable) (inputSeqs : List Nat) : List (Key × Key) :=
  (tables.filter fun t =>
    plan.targetLevel < t.level ∨ (plan.l0Merge ∧ t.level = 0 ∧ t.seq ∉ inputSeqs)).filterMap fun t =>
      match (t.meta fmt).minKey, (t.meta fmt).maxKey with
      | some lo, some hi => some (lo, hi)
      | _, _ => none

/-- The version at or below which history may be reclaimed: the grace window, kept below every held snapshot. -/
def gcFloor (maxVersion : Version) (held : List Version) : Version :=
  let floor := maxVersion - opts.tombstoneGraceVersions
  match held.min? with
  | some lowest => min floor (lowest - 1)
  | none => floor

/-- Every distinct slot of the inputs. -/
def mergeInputs (inputs : List SsTable) : Store :=
  inputs.foldl (fun merged t => t.fullScan.foldl Mvcc.Store.insert merged) .empty

def keyOverlapsAny (key : Key) (ranges : List (Key × Key)) : Bool :=
  ranges.any fun (lo, hi) => lo ≤ key && key ≤ hi

structure GcState where
  toDrop : List (Key × Version)
  floorVersions : List (Version × Bool)
  curKey : Option Key

/-- Close out a key: drop what its anchor shadows, and the anchor if it is a tombstone nothing deeper needs. -/
def closeKey (deeper : List (Key × Key)) (key : Key) (floorVersions : List (Version × Bool)) :
    List (Key × Version) :=
  match floorVersions.getLast? with
  | some (anchor, isTombstone) =>
    (floorVersions.filter fun (v, _) => v < anchor).map (fun (v, _) => (key, v)) ++
      if isTombstone && !keyOverlapsAny key deeper then [(key, anchor)] else []
  | none => []

def GcState.flushKey (deeper : List (Key × Key)) (st : GcState) : GcState :=
  { st with
    toDrop := st.toDrop ++ st.curKey.elim [] fun key => closeKey deeper key st.floorVersions
    floorVersions := [] }

/-- Make `key` the current one. -/
def GcState.enter (deeper : List (Key × Key)) (st : GcState) (key : Key) : GcState :=
  if st.curKey = some key then st else { st.flushKey deeper with curKey := some key }

def GcState.visit (floor : Version) (deeper : List (Key × Key)) (st : GcState) (r : Record) : GcState :=
  let st := st.enter deeper r.key
  if r.version ≤ floor then
    { st with floorVersions := st.floorVersions ++ [(r.version, r.value.isNone)] }
  else st

/-- The merged records without what no read above the floor can see. -/
def gcObsoleteRecords (merged : Store) (floor : Version) (deeper : List (Key × Key)) : Store :=
  let st := (merged.records.foldl (GcState.visit floor deeper) ⟨[], [], none⟩).flushKey deeper
  merged.filter fun r => (r.key, r.version) ∉ st.toDrop

structure CutState where
  partitions : List (List Record)
  current : List Record
  currentBytes : Nat

/-- Split only at a new key, and only once the current run is full. -/
def CutState.push (target : Nat) (st : CutState) (r : Record) : CutState :=
  let onNewKey := st.current.getLast?.all fun p => p.key ≠ r.key
  let st := if onNewKey ∧ target ≤ st.currentBytes ∧ st.current ≠ [] then
    ⟨st.partitions ++ [st.current], [], 0⟩ else st
  { st with current := st.current ++ [r], currentBytes := st.currentBytes + recordBytes r }

def cutRecords (records : List Record) (targetBytes : Nat) : List (List Record) :=
  let st := records.foldl (CutState.push (max targetBytes 1)) ⟨[], [], 0⟩
  if st.current = [] then st.partitions else st.partitions ++ [st.current]

theorem flatten_cutRecords (records : List Record) (targetBytes : Nat) :
    (cutRecords records targetBytes).flatten = records := by
  have hfold : ∀ (rest : List Record) (st : CutState),
    ((rest.foldl (CutState.push (max targetBytes 1)) st).partitions.flatten ++
        (rest.foldl (CutState.push (max targetBytes 1)) st).current) =
        st.partitions.flatten ++ st.current ++ rest := by
    intro rest
    induction rest with
    | nil => simp
    | cons r rest ih =>
      intro st
      rw [List.foldl_cons, ih]
      unfold CutState.push
      dsimp only
      split <;> simp
  have hall := hfold records ⟨[], [], 0⟩
  unfold cutRecords
  dsimp only
  split
  · rename_i hnil
    simpa [hnil] using hall
  · simpa using hall

theorem ordered_of_mem_cutRecords {merged : Store} {targetBytes : Nat} :
    ∀ run ∈ cutRecords merged.records targetBytes, Ordered Mvcc.Record.slot run := by
  intro run hrun
  have hsub := List.sublist_flatten_of_mem hrun
  rw [flatten_cutRecords] at hsub
  exact merged.ordered.sublist hsub

/-- Runs of about `targetBytes` that own disjoint key ranges. -/
def partitionRecords (merged : Store) (targetBytes : Nat) : List Store :=
  (cutRecords merged.records targetBytes).pmap Mvcc.Store.mk ordered_of_mem_cutRecords

/-- The tables a compaction writes, numbered from the reserved sequence numbers. -/
def compactionOutputs (inputs : List SsTable) (maxVersion : Version) (held : List Version)
    (deeper : List (Key × Key)) (base : Nat) : List SsTable :=
  let merged := gcObsoleteRecords (mergeInputs inputs) (gcFloor opts maxVersion held) deeper
  let runs := partitionRecords merged (if plan.l0Merge then u64Max else opts.targetTableBytes)
  runs.mapIdx fun i run => ⟨base + i + 1, plan.targetLevel, run⟩

/-- The manifest without the inputs and with the outputs, ordered by sequence number. -/
def Manifest.withCompacted (m : Manifest) (inputSeqs : List Nat) (outputs : List SsTable) (lastSeq : Nat) :
    Manifest :=
  { m with
    nextSeq := max m.nextSeq lastSeq
    tables := ((m.tables.filter fun t => t.seq ∉ inputSeqs) ++ outputs).insertionSort fun a b => a.seq ≤ b.seq }

/-- A compaction on its own. -/
def Inner.runCompaction (inner : Inner) : Inner :=
  let inputs := compactionInputs fmt opts plan inner.manifest.tables
  if inputs.isEmpty then inner
  else
    let inputSeqs := inputs.map (·.seq)
    let deeper := deeperRanges fmt plan inner.manifest.tables inputSeqs
    let outputs := compactionOutputs opts plan inputs inner.manifest.maxVersion inner.heldSnapshots deeper
      inner.allocSeq
    let lastSeq := inner.allocSeq + outputs.length
    { inner with
      allocSeq := lastSeq, manifest := inner.manifest.withCompacted inputSeqs outputs lastSeq }

end AnimusDb.Lsm
