import AnimusDb.SystemKeys
import Mathlib.Data.Countable.Basic
import Mathlib.Logic.Equiv.List
import Mathlib.Tactic.DeriveCountable

/-! The rows of the control plane's state in the system keyspace. Every row has a typed key; a state is the
family of its rows, and a write of a row changes that row and no other. The bytes of keys and values are
read back as what was written. -/

open OrderedMaps AnimusDb.Placement List Option
open AnimusDb.Tablet (KeyRange)

namespace AnimusDb.Catalog

/-- A row type's encoding to bytes, which reads back what it wrote. -/
structure RowCodec (α : Type) where
  toVec : α → Bytes
  fromSlice : Bytes → Option α
  fromSlice_toVec : ∀ a, fromSlice (toVec a) = some a

/-- `serde_json` for every type of row. -/
structure RowCodecs where
  tablet : RowCodec Tablet
  member : RowCodec Member
  schema : RowCodec TableSchema
  policy : RowCodec PlacementPolicy
  nodeAddrs : RowCodec NodeAddrs
  streamShard : RowCodec StreamShardRow
  splitLineage : RowCodec SplitLineage
  splitPlacing : RowCodec SplitPlacing
  backup : RowCodec BackupRow
  backupProgress : RowCodec BackupTabletProgress
  restore : RowCodec RestoreRow
  pitrSegment : RowCodec PitrSegmentRow
  credential : RowCodec CredentialRow
  exports : RowCodec ExportRow
  imports : RowCodec ImportRow
  nodeVersion : RowCodec NodeVersion
  nodeCapacity : RowCodec Capacity

/-! Encodings that read back what they write exist for every type of row: the types are countable. -/

theorem countable_of_map {α β : Type} [Countable β] (f : α → β) (hf : ∀ a b, f a = f b → a = b) : Countable α :=
  Function.Injective.countable (f := f) fun a b h => hf a b h

variable {κ α : Type} [Ord κ] [Std.TransOrd κ] [Std.LawfulEqOrd κ]

instance countableOrdMap [Countable κ] [Countable α] : Countable (OrdMap κ α) :=
  countable_of_map Std.ExtTreeMap.toList fun _ _ h => Std.ExtTreeMap.toList_inj.mp h

instance countableOrdSet [Countable κ] : Countable (OrdSet κ) :=
  countable_of_map Std.ExtTreeSet.toList fun _ _ h => Std.ExtTreeSet.toList_inj.mp h

instance countableUInt8 : Countable UInt8 := countable_of_map UInt8.toNat fun _ _ h => UInt8.toNat_inj.mp h

instance countableUInt32 : Countable UInt32 := countable_of_map UInt32.toNat fun _ _ h => UInt32.toNat_inj.mp h

instance countableUInt64 : Countable UInt64 := countable_of_map UInt64.toNat fun _ _ h => UInt64.toNat_inj.mp h

instance countableChar : Countable Char := countable_of_map Char.toNat fun _ _ h => Char.toNat_inj.mp h

instance countableString : Countable String := countable_of_map String.toList fun _ _ h =>
    String.toList_inj.mp h

deriving instance Countable for KeyRange, TabletState, SplitChild, InPlaceSplitIntent, Tablet, NodeStatus,
  Member, NodeAddrs

deriving instance Countable for ColumnType, IndexProjection, IndexKind, StreamViewType, StreamSpec, TtlSpec,
  PitrSpec, ProvisionedThroughput, IndexStatus, IndexDef, ColumnDef, MultiRegionConsistency,
  MrecReplicaStatus, MrecReplicaOverrides,
  MrecReplica, GlobalBilling, LegacyGlobal, GlobalTableSpec, TableSchema

deriving instance Countable for SpreadPolicy, PlacementPolicy, Capacity, SplitLineage, SplitPlacing,
  StreamShardRow, PitrSegmentRow, BackupPinnedTablet, BackupManifest, BackupTabletProgress, BackupStatus,
  BackupRow, ExportFormat, ExportType, JobStatus, ExportRow, InputFormat, InputCompressionType, ImportRow,
    PreviousSecret, TableMatch, OpClass, Policy,
  CredentialRow, RestoreStatus, PitrReplaySegmentRef, PitrRestorePlan, RestoreRow, VersionRange, NodeVersion

theorem nonempty_rowCodec (α : Type) [Countable α] : Nonempty (RowCodec α) := by
  obtain ⟨f, hf⟩ := exists_injective_nat α
  refine ⟨⟨fun a => replicate (f a) 0, fun bytes => Function.partialInv f bytes.length, fun a => ?_⟩⟩
  rw [length_replicate]
  exact Function.partialInv_left hf a

theorem nonempty_rowCodecs : Nonempty RowCodecs := by
  have codec := fun (α : Type) [Countable α] => (nonempty_rowCodec α).some
  exact ⟨⟨codec _, codec _, codec _, codec _, codec _, codec _, codec _, codec _, codec _, codec _, codec _,
    codec _, codec _, codec _, codec _, codec _, codec _⟩⟩

/-- The encoding that writes one row as a given text and the others behind a zero byte. -/
def RowCodec.withText {α : Type} [DecidableEq α] (codec : RowCodec α) (row : α) (text : Bytes)
    (htext : text.head? ≠ some 0) : RowCodec α where
  toVec a := if a = row then text else 0 :: codec.toVec a
  fromSlice
    | 0 :: rest => codec.fromSlice rest
    | _ => some row
  fromSlice_toVec a := by
    split_ifs with h
    · split
      · exact absurd rfl htext
      · exact congrArg some h.symm
    · exact codec.fromSlice_toVec a

/-- One mutation of the system keyspace. -/
inductive KeyWrite where
  | put (key value : Bytes)
  | delete (key : Bytes)
deriving DecidableEq

/-- The rows of the state. -/
inductive SysKey where
  | tablet (id : TabletId)
  | member (node : NodeId)
  | schema (table : TableName)
  | policy (tablet : TabletId)
  | nodeAddrs (node : NodeId)
  | nextTabletId
  | clusterVersion
  | pitrGeneration (table : TableName)
  | streamShard (tablet : TabletId) (epoch : UInt64)
  | indexBackfill (tablet : TabletId) (index : String)
  | splitLineage (child : TabletId)
  | splitPlacing (child : TabletId)
  | backup (id : BackupId)
  | backupProgress (backup : BackupId) (tablet : TabletId)
  | restore (id : RestoreId)
  | pitrSegment (tablet : TabletId) (epoch : UInt64)
  | pitrBaseBackup (backup : BackupId)
  | credential (id : AccessKeyId)
  | exports (id : ExportId)
  | imports (id : ImportId)
  | nodeVersion (node : NodeId)
  | nodeCapacity (node : NodeId)
deriving DecidableEq

/-- A row with its contents; a row that is absent has none. Counters are always there. -/
inductive RowWrite where
  | tablet (id : TabletId) (row : Option Tablet)
  | member (node : NodeId) (row : Option Member)
  | schema (table : TableName) (row : Option TableSchema)
  | policy (tablet : TabletId) (row : Option PlacementPolicy)
  | nodeAddrs (node : NodeId) (row : Option NodeAddrs)
  | nextTabletId (value : UInt64)
  | clusterVersion (value : ClusterVersion)
  | pitrGeneration (table : TableName) (value : Option UInt64)
  | streamShard (tablet : TabletId) (epoch : UInt64) (row : Option StreamShardRow)
  | indexBackfill (tablet : TabletId) (index : String) (row : Option Unit)
  | splitLineage (child : TabletId) (row : Option SplitLineage)
  | splitPlacing (child : TabletId) (row : Option SplitPlacing)
  | backup (id : BackupId) (row : Option BackupRow)
  | backupProgress (backup : BackupId) (tablet : TabletId) (row : Option BackupTabletProgress)
  | restore (id : RestoreId) (row : Option RestoreRow)
  | pitrSegment (tablet : TabletId) (epoch : UInt64) (row : Option PitrSegmentRow)
  | pitrBaseBackup (backup : BackupId) (row : Option Unit)
  | credential (id : AccessKeyId) (row : Option CredentialRow)
  | exports (id : ExportId) (row : Option ExportRow)
  | imports (id : ImportId) (row : Option ImportRow)
  | nodeVersion (node : NodeId) (row : Option NodeVersion)
  | nodeCapacity (node : NodeId) (row : Option Capacity)

def SysKey.encode : SysKey → Bytes
  | .tablet id => tabletKey id
  | .member node => memberKey node
  | .schema table => schemaKey table
  | .policy id => policyKey id
  | .nodeAddrs node => nodeAddrsKey node
  | .nextTabletId => counterKey nextTabletIdCounter
  | .clusterVersion => counterKey clusterVersionCounter
  | .pitrGeneration table => counterKey (pitrGenerationCounterName table)
  | .streamShard id epoch => streamShardKey id epoch
  | .indexBackfill id index => indexBackfillKey id index
  | .splitLineage child => splitLineageKey child
  | .splitPlacing child => splitPlacingKey child
  | .backup id => backupKey id
  | .backupProgress backupId id => backupProgressKey backupId id
  | .restore id => restoreKey id
  | .pitrSegment id epoch => pitrSegmentKey id epoch
  | .pitrBaseBackup backupId => pitrBaseBackupKey backupId
  | .credential id => credentialKey id
  | .exports id => exportKey id
  | .imports id => importKey id
  | .nodeVersion node => nodeVersionKey node
  | .nodeCapacity node => nodeCapacityKey node

namespace RowWrite

def key : RowWrite → SysKey
  | .tablet id _ => .tablet id
  | .member node _ => .member node
  | .schema table _ => .schema table
  | .policy id _ => .policy id
  | .nodeAddrs node _ => .nodeAddrs node
  | .nextTabletId _ => .nextTabletId
  | .clusterVersion _ => .clusterVersion
  | .pitrGeneration table _ => .pitrGeneration table
  | .streamShard id epoch _ => .streamShard id epoch
  | .indexBackfill id index _ => .indexBackfill id index
  | .splitLineage child _ => .splitLineage child
  | .splitPlacing child _ => .splitPlacing child
  | .backup id _ => .backup id
  | .backupProgress backupId id _ => .backupProgress backupId id
  | .restore id _ => .restore id
  | .pitrSegment id epoch _ => .pitrSegment id epoch
  | .pitrBaseBackup backupId _ => .pitrBaseBackup backupId
  | .credential id _ => .credential id
  | .exports id _ => .exports id
  | .imports id _ => .imports id
  | .nodeVersion node _ => .nodeVersion node
  | .nodeCapacity node _ => .nodeCapacity node

def value (codecs : RowCodecs) : RowWrite → Option Bytes
  | .tablet _ row => row.map codecs.tablet.toVec
  | .member _ row => row.map codecs.member.toVec
  | .schema _ row => row.map codecs.schema.toVec
  | .policy _ row => row.map codecs.policy.toVec
  | .nodeAddrs _ row => row.map codecs.nodeAddrs.toVec
  | .nextTabletId n => some (u64Bytes n)
  | .clusterVersion v => some (u64Bytes v.toUInt64)
  | .pitrGeneration _ generation => generation.map u64Bytes
  | .streamShard _ _ row => row.map codecs.streamShard.toVec
  | .indexBackfill _ _ row => row.map fun _ => []
  | .splitLineage _ row => row.map codecs.splitLineage.toVec
  | .splitPlacing _ row => row.map codecs.splitPlacing.toVec
  | .backup _ row => row.map codecs.backup.toVec
  | .backupProgress _ _ row => row.map codecs.backupProgress.toVec
  | .restore _ row => row.map codecs.restore.toVec
  | .pitrSegment _ _ row => row.map codecs.pitrSegment.toVec
  | .pitrBaseBackup _ row => row.map fun _ => []
  | .credential _ row => row.map codecs.credential.toVec
  | .exports _ row => row.map codecs.exports.toVec
  | .imports _ row => row.map codecs.imports.toVec
  | .nodeVersion _ row => row.map codecs.nodeVersion.toVec
  | .nodeCapacity _ row => row.map codecs.nodeCapacity.toVec

/-- `put_json`, `put_counter` or a tombstone. -/
def toKeyWrite (codecs : RowCodecs) (w : RowWrite) : KeyWrite :=
  match w.value codecs with
  | some bytes => .put w.key.encode bytes
  | none => .delete w.key.encode

def setRow {κ α : Type} [Ord κ] [Std.TransOrd κ] (map : OrdMap κ α) (key : κ) : Option α → OrdMap κ α
  | some row => map.insert key row
  | none => map.erase key

def install (c : Replicated) : RowWrite → Replicated
  | .tablet id row => { c with tablets := setRow c.tablets id row }
  | .member node row => { c with members := setRow c.members node row }
  | .schema table row => { c with schemas := setRow c.schemas table row }
  | .policy id row => { c with policies := setRow c.policies id row }
  | .nodeAddrs node row => { c with nodeAddrs := setRow c.nodeAddrs node row }
  | .nextTabletId n => { c with nextTabletId := n }
  | .clusterVersion v => { c with clusterVersion := v }
  | .pitrGeneration table generation => { c with pitrGeneration := setRow c.pitrGeneration table generation }
  | .streamShard id epoch row => { c with streamShards := setRow c.streamShards (id, epoch) row }
  | .indexBackfill id index row => { c with indexBackfill := setRow c.indexBackfill (id, index) row }
  | .splitLineage child row => { c with splitLineage := setRow c.splitLineage child row }
  | .splitPlacing child row => { c with splitPlacing := setRow c.splitPlacing child row }
  | .backup id row => { c with backups := setRow c.backups id row }
  | .backupProgress backupId id row =>
    { c with backupTabletProgress := setRow c.backupTabletProgress (backupId, id) row }
  | .restore id row => { c with restores := setRow c.restores id row }
  | .pitrSegment id epoch row => { c with pitrSegments := setRow c.pitrSegments (id, epoch) row }
  | .pitrBaseBackup backupId row => { c with pitrBaseBackups := setRow c.pitrBaseBackups backupId row }
  | .credential id row => { c with credentials := setRow c.credentials id row }
  | .exports id row => { c with exports := setRow c.exports id row }
  | .imports id row => { c with imports := setRow c.imports id row }
  | .nodeVersion node row => { c with nodeVersions := setRow c.nodeVersions node row }
  | .nodeCapacity node row => { c with nodeCapacity := setRow c.nodeCapacity node row }

end RowWrite

/-- The row of a state with its contents. -/
def Replicated.rowAt (c : Replicated) : SysKey → RowWrite
  | .tablet id => .tablet id c.tablets[id]?
  | .member node => .member node c.members[node]?
  | .schema table => .schema table c.schemas[table]?
  | .policy id => .policy id c.policies[id]?
  | .nodeAddrs node => .nodeAddrs node c.nodeAddrs[node]?
  | .nextTabletId => .nextTabletId c.nextTabletId
  | .clusterVersion => .clusterVersion c.clusterVersion
  | .pitrGeneration table => .pitrGeneration table c.pitrGeneration[table]?
  | .streamShard id epoch => .streamShard id epoch c.streamShards[(id, epoch)]?
  | .indexBackfill id index => .indexBackfill id index c.indexBackfill[(id, index)]?
  | .splitLineage child => .splitLineage child c.splitLineage[child]?
  | .splitPlacing child => .splitPlacing child c.splitPlacing[child]?
  | .backup id => .backup id c.backups[id]?
  | .backupProgress backupId id => .backupProgress backupId id c.backupTabletProgress[(backupId, id)]?
  | .restore id => .restore id c.restores[id]?
  | .pitrSegment id epoch => .pitrSegment id epoch c.pitrSegments[(id, epoch)]?
  | .pitrBaseBackup backupId => .pitrBaseBackup backupId c.pitrBaseBackups[backupId]?
  | .credential id => .credential id c.credentials[id]?
  | .exports id => .exports id c.exports[id]?
  | .imports id => .imports id c.imports[id]?
  | .nodeVersion node => .nodeVersion node c.nodeVersions[node]?
  | .nodeCapacity node => .nodeCapacity node c.nodeCapacity[node]?

variable {w : RowWrite}

namespace RowWrite

variable {c : Replicated}

theorem get_setRow {κ α : Type} [Ord κ] [Std.TransOrd κ] [Std.LawfulEqOrd κ] [DecidableEq κ]
    (map : OrdMap κ α) (k a : κ)
    (row : Option α) : (setRow map k row)[a]? = if k = a then row else map[a]? := by
  cases row with
  | none => exact get_erase map k a
  | some r => exact get_insert map k a r

@[simp] theorem key_rowAt (c : Replicated) (k : SysKey) : (c.rowAt k).key = k := by cases k <;> rfl

theorem rowAt_install_self (w : RowWrite) : (w.install c).rowAt w.key = w := by
  cases w <;> simp [install, key, Replicated.rowAt, get_setRow]

theorem rowAt_install_of_ne {k : SysKey} (h : w.key ≠ k) : (w.install c).rowAt k = c.rowAt k := by
  cases w <;> cases k <;> first
    | rfl
    | simp_all [install, key, Replicated.rowAt, get_setRow]

theorem ext_rows {c c' : Replicated} (h : ∀ k, c.rowAt k = c'.rowAt k) : c = c' := by
  obtain ⟨members, tablets, policies, schemas, nextTabletId, nodeAddrs, splitLineage, splitPlacing,
    streamShards, indexBackfill,
    backups, progress, restores, segments, generations, bases, credentials, exports, imports, versions,
      capacity, version⟩ := c
  have hmap : ∀ {κ α : Type} [Ord κ] [Std.TransOrd κ] [Std.LawfulEqOrd κ] {map map' : OrdMap κ α},
      (∀ k : κ, map[k]? = map'[k]?) → map = map' := fun hget => Std.ExtTreeMap.ext_getElem? (hget ·)
  congr 1
  · exact hmap fun k => (RowWrite.member.inj (h (.member k))).2
  · exact hmap fun k => (RowWrite.tablet.inj (h (.tablet k))).2
  · exact hmap fun k => (RowWrite.policy.inj (h (.policy k))).2
  · exact hmap fun k => (RowWrite.schema.inj (h (.schema k))).2
  · exact RowWrite.nextTabletId.inj (h .nextTabletId)
  · exact hmap fun k => (RowWrite.nodeAddrs.inj (h (.nodeAddrs k))).2
  · exact hmap fun k => (RowWrite.splitLineage.inj (h (.splitLineage k))).2
  · exact hmap fun k => (RowWrite.splitPlacing.inj (h (.splitPlacing k))).2
  · exact hmap fun k => (RowWrite.streamShard.inj (h (.streamShard k.1 k.2))).2.2
  · exact hmap fun k => (RowWrite.indexBackfill.inj (h (.indexBackfill k.1 k.2))).2.2
  · exact hmap fun k => (RowWrite.backup.inj (h (.backup k))).2
  · exact hmap fun k => (RowWrite.backupProgress.inj (h (.backupProgress k.1 k.2))).2.2
  · exact hmap fun k => (RowWrite.restore.inj (h (.restore k))).2
  · exact hmap fun k => (RowWrite.pitrSegment.inj (h (.pitrSegment k.1 k.2))).2.2
  · exact hmap fun k => (RowWrite.pitrGeneration.inj (h (.pitrGeneration k))).2
  · exact hmap fun k => (RowWrite.pitrBaseBackup.inj (h (.pitrBaseBackup k))).2
  · exact hmap fun k => (RowWrite.credential.inj (h (.credential k))).2
  · exact hmap fun k => (RowWrite.exports.inj (h (.exports k))).2
  · exact hmap fun k => (RowWrite.imports.inj (h (.imports k))).2
  · exact hmap fun k => (RowWrite.nodeVersion.inj (h (.nodeVersion k))).2
  · exact hmap fun k => (RowWrite.nodeCapacity.inj (h (.nodeCapacity k))).2
  · exact RowWrite.clusterVersion.inj (h .clusterVersion)

variable {post : Replicated} {rows : List RowWrite}

/-- Every write carries what the row has in the state. -/
def Reads (post : Replicated) (rows : List RowWrite) : Prop := ∀ w ∈ rows, w = post.rowAt w.key

/-- **Writes that read one state** put its rows where they write, and leave the others. -/
theorem rowAt_foldl_install (hreads : Reads post rows) (k : SysKey) :
    (rows.foldl install c).rowAt k = if k ∈ rows.map key then post.rowAt k else c.rowAt k := by
  induction rows generalizing c with
  | nil => simp
  | cons w rest ih =>
    rw [foldl_cons, ih fun w' hw' => hreads w' (mem_cons_of_mem w hw'), map_cons]
    by_cases hrest : k ∈ rest.map key
    · rw [if_pos hrest, if_pos (mem_cons_of_mem _ hrest)]
    · rw [if_neg hrest]
      by_cases hk : w.key = k
      · subst hk
        rw [rowAt_install_self, if_pos mem_cons_self]
        exact hreads w mem_cons_self
      · rw [rowAt_install_of_ne hk, if_neg]
        intro hmem
        rcases mem_cons.mp hmem with heq | hmem
        · exact hk heq.symm
        · exact hrest hmem

theorem foldl_install_eq (hreads : Reads post rows)
    (hcovers : ∀ k, post.rowAt k ≠ c.rowAt k → k ∈ rows.map key) : rows.foldl install c = post := by
  refine ext_rows fun k => ?_
  rw [rowAt_foldl_install hreads]
  split_ifs with hk
  · rfl
  · by_contra hne
    exact hk (hcovers k (Ne.symm hne))

theorem reads_of_nodup (hnodup : (rows.map key).Nodup) : Reads (rows.foldl install c) rows := by
  induction rows generalizing c with
  | nil => exact fun w hw => absurd hw not_mem_nil
  | cons w rest ih =>
    obtain ⟨hw, hrest⟩ := nodup_cons.mp hnodup
    intro w' hw'
    rcases mem_cons.mp hw' with rfl | hw'
    · have hlast := rowAt_foldl_install (ih (c := w'.install c) hrest) (c := w'.install c) w'.key
      rw [if_neg hw, rowAt_install_self] at hlast
      exact hlast.symm
    · exact ih hrest w' hw'

end RowWrite

section Bytes

open RowWrite

/-- The typed key of an id of some kind. -/
def SysKey.ofId : EntityKind → Bytes → Option SysKey
  | .tablet, id => (decodeU64 id).map .tablet
  | .member, id => (ofStrBytes id).map .member
  | .schema, id => (ofStrBytes id).map .schema
  | .policy, id => (decodeU64 id).map .policy
  | .nodeAddrs, id => (ofStrBytes id).map .nodeAddrs
  | .counter, id =>
    if id = strBytes nextTabletIdCounter then some .nextTabletId
    else if id = strBytes clusterVersionCounter then some .clusterVersion
    else (pitrGenerationTable id).map .pitrGeneration
  | .streamShard, id => (decodeNumberedId id).map fun key => .streamShard key.1 key.2
  | .indexBackfill, id => (decodeNamedId id).map fun key => .indexBackfill key.1 key.2
  | .splitLineage, id => (decodeU64 id).map .splitLineage
  | .splitPlacing, id => (decodeU64 id).map .splitPlacing
  | .backup, id => (ofStrBytes id).map .backup
  | .backupProgress, id => (decodeNamedId id).map fun key => .backupProgress key.2 key.1
  | .restore, id => (ofStrBytes id).map .restore
  | .pitrSegment, id => (decodeNumberedId id).map fun key => .pitrSegment key.1 key.2
  | .pitrBaseBackup, id => (ofStrBytes id).map .pitrBaseBackup
  | .credential, id => (ofStrBytes id).map .credential
  | .exports, id => (ofStrBytes id).map .exports
  | .imports, id => (ofStrBytes id).map .imports
  | .nodeVersion, id => (ofStrBytes id).map .nodeVersion
  | .nodeCapacity, id => (ofStrBytes id).map .nodeCapacity

theorem clusterVersionCounter_ne : strBytes clusterVersionCounter ≠ strBytes nextTabletIdCounter := fun h =>
  absurd (strBytes_injective h) (by decide)

theorem pitrGenerationCounter_ne (table : TableName) :
    strBytes (pitrGenerationCounterName table) ≠ strBytes nextTabletIdCounter ∧
      strBytes (pitrGenerationCounterName table) ≠ strBytes clusterVersionCounter :=
  ⟨fun h => pitrGenerationCounterName_ne (by decide) (strBytes_injective h),
    fun h => pitrGenerationCounterName_ne (by decide) (strBytes_injective h)⟩

/-- **Keys read back**: the bytes of a key determine it. -/
theorem SysKey.ofId_encode (k : SysKey) :
    ∃ kind id, k.encode = entityKey kind id ∧ SysKey.ofId kind id = some k := by
  cases k with
  | pitrGeneration table =>
    exact ⟨.counter, _, rfl, by simp [SysKey.ofId, pitrGenerationCounter_ne]⟩
  | nextTabletId => exact ⟨.counter, _, rfl, by simp [SysKey.ofId]⟩
  | clusterVersion => exact ⟨.counter, _, rfl, by simp [SysKey.ofId, clusterVersionCounter_ne]⟩
  | _ => exact ⟨_, _, rfl, by simp [SysKey.ofId]⟩

theorem SysKey.decodeKey_encode (k : SysKey) :
    ∃ kind id, decodeKey k.encode = some (.entity kind id) ∧ SysKey.ofId kind id = some k := by
  obtain ⟨kind, id, hencode, hof⟩ := k.ofId_encode
  exact ⟨kind, id, by rw [hencode, decodeKey_entityKey], hof⟩

theorem SysKey.encode_injective {k k' : SysKey} (h : k.encode = k'.encode) : k = k' := by
  obtain ⟨kind, id, hdecode, hof⟩ := k.decodeKey_encode
  obtain ⟨kind', id', hdecode', hof'⟩ := k'.decodeKey_encode
  rw [h, hdecode'] at hdecode
  cases hdecode
  exact some.inj (hof.symm.trans hof')

end Bytes

variable (codecs : RowCodecs) (c : Replicated)

/-- `u32::try_from(value).unwrap_or(u32::MAX)`. -/
def saturateU32 (n : UInt64) : UInt32 := if n.toNat < 2 ^ 32 then n.toUInt32 else .ofNat (2 ^ 32 - 1)

/-- Put a row of some kind; a value or an id that does not decode panics. -/
def putEntity (id value : Bytes) : EntityKind → Option Replicated
  | .tablet => do
      let row ← codecs.tablet.fromSlice value
      some { c with tablets := c.tablets.insert (← decodeU64 id) row }
  | .member => do
      let row ← codecs.member.fromSlice value
      some { c with members := c.members.insert (← ofStrBytes id) row }
  | .schema => do
      let name ← ofStrBytes id
      some { c with schemas := c.schemas.insert name (← codecs.schema.fromSlice value) }
  | .policy => do
      let row ← codecs.policy.fromSlice value
      some { c with policies := c.policies.insert (← decodeU64 id) row }
  | .nodeAddrs => do
      let row ← codecs.nodeAddrs.fromSlice value
      some { c with nodeAddrs := c.nodeAddrs.insert (← ofStrBytes id) row }
  | .counter => do
      let n ← decodeU64 value
      if id = strBytes nextTabletIdCounter then some { c with nextTabletId := n }
      else if id = strBytes clusterVersionCounter then some { c with clusterVersion := saturateU32 n }
      else match pitrGenerationTable id with
        | some table => some { c with pitrGeneration := c.pitrGeneration.insert table n }
        | none => some c
  | .streamShard =>
    match decodeNumberedId id with
    | none => some c
    | some key =>
      do some { c with streamShards := c.streamShards.insert key (← codecs.streamShard.fromSlice value) }
  | .indexBackfill =>
    match decodeNamedId id with
    | none => some c
    | some key => some { c with indexBackfill := c.indexBackfill.insert key () }
  | .splitLineage => do
      let row ← codecs.splitLineage.fromSlice value
      some { c with splitLineage := c.splitLineage.insert (← decodeU64 id) row }
  | .splitPlacing => do
      let row ← codecs.splitPlacing.fromSlice value
      some { c with splitPlacing := c.splitPlacing.insert (← decodeU64 id) row }
  | .backup => do
      let name ← ofStrBytes id
      some { c with backups := c.backups.insert name (← codecs.backup.fromSlice value) }
  | .backupProgress =>
    match decodeNamedId id with
    | none => some c
    | some (tablet, backupId) => do
        let row ← codecs.backupProgress.fromSlice value
        some { c with backupTabletProgress := c.backupTabletProgress.insert (backupId, tablet) row }
  | .restore => do
      let name ← ofStrBytes id
      some { c with restores := c.restores.insert name (← codecs.restore.fromSlice value) }
  | .pitrSegment =>
    match decodeNumberedId id with
    | none => some c
    | some key =>
      do some { c with pitrSegments := c.pitrSegments.insert key (← codecs.pitrSegment.fromSlice value) }
  | .pitrBaseBackup => do
      some { c with pitrBaseBackups := c.pitrBaseBackups.insert (← ofStrBytes id) () }
  | .credential => do
      let name ← ofStrBytes id
      some { c with credentials := c.credentials.insert name (← codecs.credential.fromSlice value) }
  | .exports => do
      let name ← ofStrBytes id
      some { c with exports := c.exports.insert name (← codecs.exports.fromSlice value) }
  | .nodeVersion => do
      let row ← codecs.nodeVersion.fromSlice value
      some { c with nodeVersions := c.nodeVersions.insert (← ofStrBytes id) row }
  | .nodeCapacity => do
      let row ← codecs.nodeCapacity.fromSlice value
      some { c with nodeCapacity := c.nodeCapacity.insert (← ofStrBytes id) row }
  | .imports => do
      let name ← ofStrBytes id
      some { c with imports := c.imports.insert name (← codecs.imports.fromSlice value) }

/-- The put half of `apply_key_write`; a key that is no entity's is ignored. -/
def applyPut (key value : Bytes) : Option Replicated :=
  match decodeKey key with
  | some (.entity kind id) => putEntity codecs c id value kind
  | some .appliedIndex | none => some c

/-- Delete a row of some kind. Counters are never deleted. -/
def deleteEntity (id : Bytes) : EntityKind → Option Replicated
  | .counter => some c
  | .tablet => do some { c with tablets := c.tablets.erase (← decodeU64 id) }
  | .member => do some { c with members := c.members.erase (← ofStrBytes id) }
  | .schema => do some { c with schemas := c.schemas.erase (← ofStrBytes id) }
  | .policy => do some { c with policies := c.policies.erase (← decodeU64 id) }
  | .nodeAddrs => do some { c with nodeAddrs := c.nodeAddrs.erase (← ofStrBytes id) }
  | .streamShard =>
    some ((decodeNumberedId id).elim c fun key => { c with streamShards := c.streamShards.erase key })
  | .indexBackfill =>
    some ((decodeNamedId id).elim c fun key => { c with indexBackfill := c.indexBackfill.erase key })
  | .splitLineage => do some { c with splitLineage := c.splitLineage.erase (← decodeU64 id) }
  | .splitPlacing => do some { c with splitPlacing := c.splitPlacing.erase (← decodeU64 id) }
  | .backup => do some { c with backups := c.backups.erase (← ofStrBytes id) }
  | .backupProgress =>
    some ((decodeNamedId id).elim c fun key =>
      { c with backupTabletProgress := c.backupTabletProgress.erase (key.2, key.1) })
  | .restore => do some { c with restores := c.restores.erase (← ofStrBytes id) }
  | .pitrSegment =>
    some ((decodeNumberedId id).elim c fun key => { c with pitrSegments := c.pitrSegments.erase key })
  | .pitrBaseBackup => do some { c with pitrBaseBackups := c.pitrBaseBackups.erase (← ofStrBytes id) }
  | .credential => do some { c with credentials := c.credentials.erase (← ofStrBytes id) }
  | .exports => do some { c with exports := c.exports.erase (← ofStrBytes id) }
  | .nodeVersion => do some { c with nodeVersions := c.nodeVersions.erase (← ofStrBytes id) }
  | .nodeCapacity => do some { c with nodeCapacity := c.nodeCapacity.erase (← ofStrBytes id) }
  | .imports => do some { c with imports := c.imports.erase (← ofStrBytes id) }

/-- The delete half of `apply_key_write`. -/
def applyDelete (key : Bytes) : Option Replicated :=
  match decodeKey key with
  | some (.entity kind id) => deleteEntity c id kind
  | some .appliedIndex | none => some c

def applyKeyWrite : KeyWrite → Option Replicated
  | .put key value => applyPut codecs c key value
  | .delete key => applyDelete c key

/-- A generation counter is only ever set. -/
def RowWrite.Storable : RowWrite → Prop
  | .pitrGeneration _ none => False
  | _ => True

theorem saturateU32_toUInt64 (v : UInt32) : saturateU32 v.toUInt64 = v := by
  have hlt : v.toUInt64.toNat < 2 ^ 32 := by
    rw [UInt32.toNat_toUInt64]
    exact v.toNat_lt
  rw [saturateU32, if_pos hlt]
  simp

theorem applyPut_entityKey (kind : EntityKind) (id value : Bytes) :
    applyPut codecs c (entityKey kind id) value = putEntity codecs c id value kind := by
  rw [applyPut, decodeKey_entityKey]

theorem applyPut_value {bytes : Bytes} (h : w.value codecs = some bytes) :
    applyPut codecs c w.key.encode bytes = some (w.install c) := by
  cases w with
  | nextTabletId n =>
    cases h
    simp [RowWrite.key, SysKey.encode, counterKey, applyPut_entityKey, putEntity, RowWrite.install]
  | clusterVersion v =>
    cases h
    simp [RowWrite.key, SysKey.encode, counterKey, applyPut_entityKey, putEntity, RowWrite.install,
      clusterVersionCounter_ne, saturateU32_toUInt64]
  | pitrGeneration table row =>
    obtain ⟨n, rfl, rfl⟩ := map_eq_some_iff.mp h
    simp [RowWrite.key, SysKey.encode, counterKey, applyPut_entityKey, putEntity, RowWrite.install,
      RowWrite.setRow, pitrGenerationCounter_ne]
  | _ =>
    obtain ⟨r, rfl, rfl⟩ := map_eq_some_iff.mp h
    simp [RowWrite.key, SysKey.encode, streamShardKey, indexBackfillKey, backupProgressKey, pitrSegmentKey,
      tabletKey, policyKey, splitLineageKey, splitPlacingKey, memberKey, schemaKey, nodeAddrsKey, backupKey,
      restoreKey, pitrBaseBackupKey, credentialKey, exportKey, importKey, nodeVersionKey, nodeCapacityKey,
      applyPut_entityKey, putEntity, RowWrite.install,
      RowWrite.setRow, RowCodec.fromSlice_toVec]

theorem applyDelete_absent (hw : w.Storable) (h : w.value codecs = none) :
    applyDelete c w.key.encode = some (w.install c) := by
  cases w with
  | nextTabletId n | clusterVersion v => cases h
  | pitrGeneration table row =>
    cases map_eq_none_iff.mp h
    exact absurd hw id
  | _ =>
    cases map_eq_none_iff.mp h
    simp [RowWrite.key, SysKey.encode, streamShardKey, indexBackfillKey, backupProgressKey, pitrSegmentKey,
      tabletKey, policyKey, splitLineageKey, splitPlacingKey, memberKey, schemaKey, nodeAddrsKey, backupKey,
      restoreKey, pitrBaseBackupKey, credentialKey, exportKey, importKey, nodeVersionKey, nodeCapacityKey,
      applyDelete, decodeKey_entityKey, deleteEntity,
      RowWrite.install, RowWrite.setRow]

theorem applyKeyWrite_toKeyWrite (hw : w.Storable) :
    applyKeyWrite codecs c (w.toKeyWrite codecs) = some (w.install c) := by
  unfold RowWrite.toKeyWrite
  cases h : w.value codecs with
  | none => exact applyDelete_absent codecs c hw h
  | some bytes => exact applyPut_value codecs c h

end AnimusDb.Catalog
