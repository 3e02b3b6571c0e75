import AnimusDb.CatalogSchema
import AnimusDb.Placement
import AnimusDb.TabletKeys

/-! The control plane's replicated state: members, the tablet map with its placement, schemas, and the rows
of streams, backups, exports, restores, imports and credentials. -/

open OrderedMaps AnimusDb.Placement
open AnimusDb.Tablet (KeyRange)

namespace AnimusDb.Catalog

abbrev TabletId := UInt64

abbrev Epoch := UInt64

abbrev Bytes := List UInt8

inductive TabletState where
  | active | building | splitting
deriving DecidableEq

structure SplitChild where
  id : TabletId
  replicas : List NodeId
deriving DecidableEq

/-- A split under way: at which key, and into which tablets. -/
structure InPlaceSplitIntent where
  splitKey : Bytes
  left : SplitChild
  right : SplitChild
deriving DecidableEq

/-- A range of a table's keys and the nodes that hold it. -/
structure Tablet where
  id : TabletId
  table : Option TableName
  range : KeyRange
  replicas : List NodeId
  epoch : Epoch
  state : TabletState
  inplaceSplit : Option InPlaceSplitIntent
  settledEpoch : Option Epoch
deriving DecidableEq

def Epoch.initial : Epoch := 1

/-- A tablet at its first epoch. -/
def Tablet.withTable (id : TabletId) (table : Option TableName) (range : KeyRange) (replicas : List NodeId) :
    Tablet :=
  ⟨id, table, range, nodeSet replicas, Epoch.initial, .active, none, none⟩

inductive NodeStatus where
  | joining | active | leaving | down
deriving DecidableEq

/-- A node of the cluster; that it was active once is remembered. -/
structure Member where
  labels : Labels
  status : NodeStatus
  hasActivated : Bool
deriving DecidableEq

/-- Why a member holds back the next cluster version. -/
def Member.finalizeBlockReason (m : Member) : Option String :=
  match m.status, m.hasActivated with
  | .down, _ => some "member is Down"
  | .leaving, _ => some "member is Leaving"
  | .joining, false => some "member is Joining (never activated)"
  | .joining, true | .active, _ => none

structure NodeAddrs where
  internal : String
  client : String
  intra : String
  admin : String
  role : String
deriving DecidableEq

abbrev ClusterVersion := UInt32

/-- The cluster versions that a build can run at. -/
structure VersionRange where
  min : ClusterVersion
  max : ClusterVersion
deriving DecidableEq

def VersionRange.isValid (r : VersionRange) : Bool := 1 ≤ r.min && r.min ≤ r.max

def VersionRange.contains (r : VersionRange) (v : ClusterVersion) : Bool := r.min ≤ v && v ≤ r.max

structure NodeVersion where
  range : VersionRange
  build : String
deriving DecidableEq

/-- From which tablet, at which epoch, a tablet was split. -/
structure SplitLineage where
  parent : TabletId
  parentsFinalEpoch : Option UInt64
  cutoverWallMs : Nat
deriving DecidableEq

/-- Where the replicas of a split tablet are still to go. -/
structure SplitPlacing where
  target : Option (List NodeId)
  done : Bool
deriving DecidableEq

/-- A sealed piece of a stream. -/
structure StreamShardRow where
  table : TableName
  label : String
  viewType : StreamViewType
  hlcRange : Nat × Nat
  count : Nat
  sealWallMs : Nat
  replicas : List NodeId
  objectId : String
  expired : Bool
deriving DecidableEq

/-- A sealed piece of the log for point-in-time recovery. -/
structure PitrSegmentRow where
  table : TableName
  generation : UInt64
  hlcRange : Nat × Nat
  count : Nat
  sealWallMs : Nat
  replicas : List NodeId
  objectId : String
  expired : Bool
deriving DecidableEq

abbrev BackupId := String

structure BackupPinnedTablet where
  tablet : TabletId
  range : KeyRange
deriving DecidableEq

/-- The schema and the ranges that a backup captures. -/
structure BackupManifest where
  schema : TableSchema
  pinnedTablets : List BackupPinnedTablet
  createdWallMs : Nat
deriving DecidableEq

/-- What has been captured of one tablet. -/
structure BackupTabletProgress where
  cutVersion : Nat
  bytes : UInt64
  chunkCount : Nat
deriving DecidableEq

inductive BackupStatus where
  | creating
  | available
  | failed (reason : String)
  | expired
deriving DecidableEq

structure BackupRow where
  table : TableName
  backupName : String
  status : BackupStatus
  manifest : BackupManifest
  totalBytes : UInt64
deriving DecidableEq

abbrev ExportId := String

inductive ExportFormat where
  | dynamoDbJson | ion
deriving DecidableEq

inductive ExportType where
  | full | incremental
deriving DecidableEq

inductive JobStatus where
  | inProgress
  | completed
  | failed (reason : String)
deriving DecidableEq

structure ExportRow where
  table : TableName
  tableArn : String
  s3Bucket : String
  s3Prefix : Option String
  format : ExportFormat
  exportType : ExportType
  exportTimeMs : Option Nat
  clientToken : Option String
  status : JobStatus
  createdWallMs : Nat
  completedWallMs : Option Nat
  itemCount : Nat
  billedSizeBytes : Nat
  exportManifest : Option String
deriving DecidableEq

abbrev ImportId := String

inductive InputFormat where
  | dynamoDbJson | ion | csv
deriving DecidableEq

inductive InputCompressionType where
  | gzip | none | zstd
deriving DecidableEq

structure ImportRow where
  targetTable : TableName
  targetTableArn : String
  tableId : String
  s3Bucket : String
  s3Prefix : Option String
  inputFormat : InputFormat
  inputCompression : InputCompressionType
  baseSchema : TableSchema
  keyTypes : List (String × String)
  gsiDefs : List IndexDef
  throughput : Option ProvisionedThroughput
  tablet : TabletId
  clientToken : Option String
  status : JobStatus
  createdWallMs : Nat
  completedWallMs : Option Nat
  processedItemCount : Nat
  importedItemCount : Nat
  errorCount : Nat
  processedSizeBytes : Nat
deriving DecidableEq

abbrev AccessKeyId := String

structure PreviousSecret where
  secret : String
  validUntil : Nat
deriving DecidableEq

inductive TableMatch where
  | all
  | names (tables : OrdSet TableName)
  | prefixes (starts : OrdSet String)
deriving DecidableEq

inductive OpClass where
  | read | write | ddl | streams | backup | admin
deriving DecidableEq

/-- What a credential may do, and to which tables. -/
structure Policy where
  tables : TableMatch
  /-- In their order, each once. -/
  ops : List OpClass
deriving DecidableEq

/-- An access key; after a rotation the old secret stays valid for a while. -/
structure CredentialRow where
  secret : String
  previous : Option PreviousSecret
  policy : Policy
  enabled : Bool
  createdAt : Nat
  updatedAt : Nat
deriving DecidableEq

abbrev RestoreId := String

inductive RestoreStatus where
  | seeding
  | done
  | failed (reason : String)
deriving DecidableEq

structure PitrReplaySegmentRef where
  tablet : TabletId
  epoch : UInt64
  objectId : String
  replayRange : Nat × Nat
deriving DecidableEq

/-- The segments that a restore replays over its backup. -/
structure PitrRestorePlan where
  targetWallMs : Nat
  segments : List PitrReplaySegmentRef
deriving DecidableEq

structure RestoreRow where
  backupId : BackupId
  sourceTable : TableName
  targetTable : TableName
  tablet : TabletId
  gsiDefs : List IndexDef
  pitr : Option PitrRestorePlan
  status : RestoreStatus
deriving DecidableEq

/-- The replicated fields of the state; two states with the same are equal for the source. -/
structure Replicated where
  members : OrdMap NodeId Member := ∅
  tablets : OrdMap TabletId Tablet := ∅
  policies : OrdMap TabletId PlacementPolicy := ∅
  schemas : OrdMap TableName TableSchema := ∅
  nextTabletId : UInt64 := 0
  nodeAddrs : OrdMap NodeId NodeAddrs := ∅
  splitLineage : OrdMap TabletId SplitLineage := ∅
  splitPlacing : OrdMap TabletId SplitPlacing := ∅
  streamShards : OrdMap (TabletId × UInt64) StreamShardRow := ∅
  indexBackfill : OrdMap (TabletId × String) Unit := ∅
  backups : OrdMap BackupId BackupRow := ∅
  backupTabletProgress : OrdMap (BackupId × TabletId) BackupTabletProgress := ∅
  restores : OrdMap RestoreId RestoreRow := ∅
  pitrSegments : OrdMap (TabletId × UInt64) PitrSegmentRow := ∅
  pitrGeneration : OrdMap TableName UInt64 := ∅
  pitrBaseBackups : OrdMap BackupId Unit := ∅
  credentials : OrdMap AccessKeyId CredentialRow := ∅
  exports : OrdMap ExportId ExportRow := ∅
  imports : OrdMap ImportId ImportRow := ∅
  nodeVersions : OrdMap NodeId NodeVersion := ∅
  nodeCapacity : OrdMap NodeId Capacity := ∅
  clusterVersion : UInt32 := 0

/-- The tablets of each table. It is rebuilt from the tablet map when its total is not the number of tablets. -/
structure TabletIndex where
  byTable : OrdMap TableName (OrdMap TabletId Unit) := ∅
  total : Nat := 0

namespace TabletIndex

variable (ix : TabletIndex)

/-- Judged by the number of tablets alone. -/
def isValid (size : Nat) : Bool := ix.total = size

def add (table : Option TableName) (id : TabletId) : TabletIndex :=
  match table with
  | some table => { ix with byTable := ix.byTable.insert table (((ix.byTable[table]?).getD ∅).insert id ()) }
  | none => ix

def remove (table : Option TableName) (id : TabletId) : TabletIndex :=
  match table.bind fun t => ix.byTable[t]?.map fun ids => (t, ids.erase id) with
  | some (t, ids) =>
    { ix with byTable := if ids.isEmpty then ix.byTable.erase t else ix.byTable.insert t ids }
  | none => ix

def ids (table : TableName) : List TabletId := (ix.byTable[table]?).elim [] Std.ExtTreeMap.keys

def build (tablets : OrdMap TabletId Tablet) : TabletIndex :=
  tablets.toList.foldl (fun ix (id, t) => ix.add t.table id) ⟨∅, tablets.size⟩

end TabletIndex

/-- A node without a declared capacity has the default one. -/
def candidateOf (id : NodeId) (member : Member) (capacity : OrdMap NodeId Capacity) : Candidate :=
  ⟨id, member.labels, capacity[id]?.getD .default⟩

def activeCandidates (members : OrdMap NodeId Member) (capacity : OrdMap NodeId Capacity) : List Candidate :=
  (members.toList.filter fun entry => entry.2.status = .active).map fun entry =>
    candidateOf entry.1 entry.2 capacity

/-- The replicas on each node, over all tablets. -/
def replicaLoad (tablets : OrdMap TabletId Tablet) : Load :=
  tablets.values.foldl (fun load t => t.replicas.foldl (fun load r => load.insert r (load.of r + 1)) load) ∅

/-- The state of the metadata state machine. -/
structure Metadata extends Replicated where
  tabletIndex : TabletIndex := {}
  placementRev : UInt64 := 0

namespace Metadata

variable (m : Metadata)

/-- The tablets of a table, from the index if it is valid, else by a scan. -/
def tabletsForTable (table : TableName) : List (TabletId × Tablet) :=
  if m.tabletIndex.isValid m.tablets.size then
    (m.tabletIndex.ids table).filterMap fun id => m.tablets[id]?.map fun t => (id, t)
  else m.tablets.toList.filter fun entry => entry.2.table = some table

/-- Is there a tablet of the table? -/
def hasTableTablet (table : TableName) : Bool :=
  if m.tabletIndex.isValid m.tablets.size then !(m.tabletIndex.ids table).isEmpty
  else !(m.tabletsForTable table).isEmpty

/-- The index follows, if it is valid. -/
def insertTablet (id : TabletId) (tablet : Tablet) : Metadata :=
  let tablets := m.tablets.insert id tablet
  { m with
    tablets
    tabletIndex :=
      if m.tabletIndex.isValid m.tablets.size then
        let without := m.tablets[id]?.elim m.tabletIndex fun old => m.tabletIndex.remove old.table id
        { without.add tablet.table id with total := tablets.size }
      else m.tabletIndex }

def removeTablet (id : TabletId) : Metadata :=
  let tablets := m.tablets.erase id
  { m with
    tablets
    tabletIndex :=
      if m.tabletIndex.isValid m.tablets.size then
        let without := m.tablets[id]?.elim m.tabletIndex fun old => m.tabletIndex.remove old.table id
        { without with total := tablets.size }
      else m.tabletIndex }

/-- Rebuild an index that is not valid. -/
def ensureTabletIndex : Metadata :=
  if m.tabletIndex.isValid m.tablets.size then m else { m with tabletIndex := .build m.tablets }

/-- Above the allocator's mark and above every tablet in the map. -/
def nextFreeTabletId : TabletId :=
  let highest := m.tablets.keys.getLast?.getD 0
  max (max m.nextTabletId (highest + 1)) 1

/-- The number of tablets with a replica on the node. -/
def tabletsReferencing (node : NodeId) : Nat := m.tablets.values.countP fun t => t.replicas.contains node

/-- The cluster version; before any version was reported it is the first. -/
def clusterVersionOrFirst : ClusterVersion := max m.clusterVersion 1

def versioningActive : Bool := m.clusterVersion ≠ 0

/-- The nodes that must support a version before it is finalized. -/
def requiredVersionSet : List NodeId := nodeSet (m.members.keys ++ m.nodeAddrs.keys)

/-- The version at which declared capacities count. -/
def nodeCapacityGate : ClusterVersion := 5

def capacityGateOpen : Bool := m.versioningActive && nodeCapacityGate ≤ m.clusterVersionOrFirst

/-- The declared capacities, once their gate is open. -/
def effectiveCapacities : OrdMap NodeId Capacity := if m.capacityGateOpen then m.nodeCapacity else ∅

/-- The live tablets that descend from a tablet by splits. The recursion is bounded by the number of
recorded splits. -/
def liveSplitDescendantsWithin : Nat → TabletId → List TabletId
  | 0, ancestor => if m.tablets.contains ancestor then [ancestor] else []
  | depth + 1, ancestor =>
    if m.tablets.contains ancestor then [ancestor]
    else (m.splitLineage.toList.filter fun entry => entry.2.parent = ancestor).flatMap fun entry =>
      liveSplitDescendantsWithin depth entry.1

def liveSplitDescendants (ancestor : TabletId) : List TabletId :=
  m.liveSplitDescendantsWithin m.splitLineage.size ancestor

/-- Go up the lineage from a tablet to a pinned one, at most so many steps. -/
def tracesToPinnedWithin (pinned : List BackupPinnedTablet) : Nat → TabletId → Bool
  | 0, _ => false
  | steps + 1, cur =>
    if pinned.any (·.tablet = cur) then true
    else match m.splitLineage[cur]? with
      | some lineage => tracesToPinnedWithin pinned steps lineage.parent
      | none => false

def tracesToPinned (pinned : List BackupPinnedTablet) (tablet : TabletId) : Bool :=
  m.tracesToPinnedWithin pinned (m.splitLineage.size + 1) tablet

variable (backupId : BackupId)

/-- Every live descendant of a pinned tablet has been captured. -/
def pinnedTabletCaptureComplete (pinned : TabletId) : Bool :=
  let live := m.liveSplitDescendants pinned
  !live.isEmpty && live.all fun t => m.backupTabletProgress.contains (backupId, t)

/-- What each live descendant of the pinned tablets has reported. -/
def backupManifestTabletProgress : List (TabletId × Option BackupTabletProgress) :=
  match m.backups[backupId]? with
  | some row => (row.manifest.pinnedTablets.flatMap fun p => m.liveSplitDescendants p.tablet).map fun t =>
    (t, m.backupTabletProgress[(backupId, t)]?)
  | none => []

def backupTotalBytes : UInt64 :=
  (m.backupManifestTabletProgress backupId).foldl (fun sum entry => entry.2.elim sum fun p => sum + p.bytes) 0

def backupReferencedByALiveRestore : Bool :=
  m.restores.values.any fun r => r.backupId = backupId && r.status = .seeding

def hasTableSchema (table : TableName) : Bool := m.schemas.contains table

def tableStream (table : TableName) : Option StreamSpec := m.schemas[table]?.bind TableSchema.stream

end Metadata

end AnimusDb.Catalog
