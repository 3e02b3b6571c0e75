import AnimusDb.CatalogState

/-! The commands of the metadata state machine and what each does to the state. A command that is refused,
as a no-op or with a reason, leaves the replicated state as it was. -/

open OrderedMaps AnimusDb.Placement
open AnimusDb.Tablet (KeyRange tokenBytes)

namespace AnimusDb.Catalog

inductive MetaCommand where
  | noOp
  | upsertMember (node : NodeId) (labels : Labels) (status : NodeStatus)
  | createTablet (tablet : TabletId) (table : Option TableName) (range : KeyRange) (replicas : List NodeId)
  | casTabletReplicas (tablet : TabletId) (expectedEpoch : Epoch) (replicas : List NodeId)
  | beginSplitInPlace (parent : TabletId) (expectedEpoch : Epoch) (splitKey : Bytes) (left right : SplitChild)
  | cutoverSplit (parent : TabletId) (expectedEpoch : Epoch) (cutoverWallMs : Nat)
  | markSplitPlacingDone (tablet : TabletId) (expectedEpoch : Epoch)
  | repairSettled (tablet : TabletId) (epoch : Epoch)
  | retargetSplitPlacing (tablet : TabletId) (expectedEpoch : Epoch) (target : Option (List NodeId))
  | setTabletPolicy (tablet : TabletId) (policy : Option PlacementPolicy)
  | createTableSchema (table : TableName) (schema : TableSchema)
  | dropTableSchema (table : TableName)
  | replaceTableSchema (table : TableName) (schema : TableSchema)
  | dropTableTablets (table : TableName)
  | createTableIndex (table : TableName) (index : IndexDef)
  | dropTableIndex (table : TableName) (index : String)
  | setIndexStatus (table : TableName) (index : String) (status : IndexStatus)
  | markIndexBackfilled (table : TableName) (index : String) (tablet : TabletId)
  | setTableStream (table : TableName) (spec : Option StreamSpec)
  | setTableTtl (table : TableName) (spec : Option TtlSpec)
  | convertTableToGlobal (table : TableName) (spec : GlobalTableSpec)
  | setGlobalPreferredLeader (table : TableName) (region : String)
  | revertGlobalToRegional (table : TableName) (keepRegion : String)
  | convertTableToMrec (table : TableName) (localRegion : String) (regionId : UInt32)
  | addMrecReplica (table : TableName) (region : String) (regionId : UInt32)
  | removeMrecReplica (table : TableName) (region : String)
  | setMrecReplicaStatus (table : TableName) (region : String) (status : MrecReplicaStatus)
  | markMrecCopied (table : TableName) (region : String) (tablet : UInt64)
  | setMrecReplicaOverrides (table : TableName) (region : String) (overrides : MrecReplicaOverrides)
  | convertTableToLegacyGlobal (table : TableName) (localRegion : String) (regionId : UInt32) (createdMs : Nat)
  | setLegacyGlobalSettings (table : TableName) (billing : GlobalBilling) (stamp origin : Nat)
  | setTableThroughput (table : TableName) (spec : Option ProvisionedThroughput)
  | tagResource (table : TableName) (tags : OrdMap String String)
  | untagResource (table : TableName) (tagKeys : List String)
  | updateContinuousBackups (table : TableName) (enabled : Bool) (wallMs : Nat)
  | sealStreamShard (table : TableName) (label : String) (tablet : TabletId) (epoch : UInt64)
      (viewType : StreamViewType)
      (hlcRange : Nat × Nat) (count sealWallMs : Nat) (replicas : List NodeId) (objectId : String)
  | expireStreamShards (rows : List (TabletId × UInt64)) (remove : Bool)
  | sealPitrSegment (table : TableName) (generation : UInt64) (tablet : TabletId) (epoch : UInt64)
      (hlcRange : Nat × Nat) (count sealWallMs : Nat) (replicas : List NodeId) (objectId : String)
  | expirePitrSegments (rows : List (TabletId × UInt64)) (remove : Bool)
  | registerNodeAddrs (node : NodeId) (addrs : NodeAddrs)
  | removeMember (node : NodeId)
  | registerNode (node : NodeId) (addrs : NodeAddrs) (labels : Labels) (capacity : Option Capacity)
  | setNodeCapacity (node : NodeId) (capacity : Capacity)
  | reportNodeVersion (node : NodeId) (range : VersionRange) (build : String)
  | finalizeClusterVersion (expected target : ClusterVersion)
  | beginBackup (backupId : BackupId) (table : TableName) (createdWallMs : Nat) (backupName : String)
      (pitrBase : Bool)
  | recordBackupTabletComplete (backupId : BackupId) (tablet : TabletId) (cutVersion : Nat) (bytes : UInt64)
      (chunkCount : Nat)
  | completeBackup (backupId : BackupId)
  | failBackup (backupId : BackupId) (reason : String)
  | deleteBackup (backupId : BackupId)
  | markBackupDeleted (backupId : BackupId)
  | beginExport (exportId : ExportId) (table : TableName) (tableArn s3Bucket : String) (s3Prefix : Option String)
      (format : ExportFormat) (exportType : ExportType) (exportTimeMs : Option Nat) (clientToken : Option String)
      (createdWallMs : Nat)
  | completeExport (exportId : ExportId) (itemCount billedSizeBytes : Nat) (exportManifest : String)
      (completedWallMs : Nat)
  | failExport (exportId : ExportId) (reason : String) (completedWallMs : Nat)
  | beginRestore (restoreId : RestoreId) (backupId : BackupId) (sourceTable targetTable : TableName)
      (tablet : TabletId) (replicas : List NodeId) (gsiDefs : List IndexDef) (pitr : Option PitrRestorePlan)
  | completeRestore (restoreId : RestoreId)
  | failRestore (restoreId : RestoreId) (reason : String)
  | beginImport (importId : ImportId) (targetTable : TableName) (targetTableArn tableId s3Bucket : String)
      (s3Prefix : Option String) (inputFormat : InputFormat) (inputCompression : InputCompressionType)
      (baseSchema : TableSchema) (keyTypes : List (String × String)) (gsiDefs : List IndexDef)
      (throughput : Option ProvisionedThroughput) (tablet : TabletId) (replicas : List NodeId)
      (clientToken : Option String) (createdWallMs : Nat)
  | completeImport (importId : ImportId)
      (processedItemCount importedItemCount errorCount processedSizeBytes : Nat) (completedWallMs : Nat)
  | failImport (importId : ImportId) (reason : String)
      (processedItemCount importedItemCount errorCount processedSizeBytes : Nat) (completedWallMs : Nat)
  | putCredential (id : AccessKeyId) (secret : String) (policy : Policy) (enabled : Bool) (now : Nat)
  | rotateCredential (id : AccessKeyId) (newSecret : String) (graceSecs now : Nat)
  | revokeCredential (id : AccessKeyId)

/-- Why a command is not applied. -/
inductive Refusal where
  | noOp
  | rejected (reason : String)
deriving DecidableEq

inductive ApplyOutcome where
  | applied
  | noOp
  | rejected (reason : String)
deriving DecidableEq

def Refusal.outcome : Refusal → ApplyOutcome
  | .noOp => .noOp
  | .rejected reason => .rejected reason

/-- The result of a command's arm: the new state, or why there is none. -/
abbrev Arm (α : Type) := Except Refusal α

def reject {α : Type} (reason : String) : Arm α := .error (.rejected reason)

def unchanged {α : Type} : Arm α := .error .noOp

def orReject {α : Type} (reason : String) : Option α → Arm α
  | some a => .ok a
  | none => reject reason

namespace Metadata

variable (m : Metadata)

variable (table : TableName) (tablet : TabletId) (region : String) (node : NodeId) (backupId : BackupId)
  (expectedEpoch : Epoch) (id : TabletId)

/-- Replace a row of the tablet map in place. -/
def setTablet (t : Tablet) : Metadata := { m with tablets := m.tablets.insert id t }

/-- Keep the allocator above an id. -/
def reserve : Metadata := { m with nextTabletId := max m.nextTabletId (id + 1) }

def createTablet (table : Option TableName) (range : KeyRange) (replicas : List NodeId) : Arm Metadata :=
  if m.tablets.contains tablet then reject "tablet already exists"
  else if table.any m.hasTableTablet then reject "table already has a tablet"
  else if tablet < m.nextFreeTabletId then reject "tablet id below the monotonic allocator"
  else .ok ((m.insertTablet tablet (.withTable tablet table range replicas)).reserve tablet)

def casTabletReplicas (replicas : List NodeId) : Arm Metadata := do
  let t ← orReject "no such tablet" m.tablets[tablet]?
  if t.epoch ≠ expectedEpoch then reject "epoch mismatch"
  else .ok (m.setTablet tablet { t with replicas := nodeSet replicas, epoch := t.epoch + 1 })

def checkChildId : Arm Unit :=
  if m.tablets.contains id then reject "child tablet id already exists"
  else if id < m.nextFreeTabletId then reject "child tablet id below the monotonic allocator"
  else .ok ()

def beginSplitInPlace (parent : TabletId) (expectedEpoch : Epoch) (splitKey : Bytes)
    (left right : SplitChild) : Arm Metadata := do
  if left.id = right.id then reject "child ids must be distinct"
  else
    m.checkChildId left.id
    m.checkChildId right.id
    let source ← orReject "no such tablet" m.tablets[parent]?
    if source.epoch ≠ expectedEpoch then reject "epoch mismatch"
    else if source.state ≠ .active then reject "tablet is not Active"
    else if splitKey.length ≠ tokenBytes && source.table.any (fun table => (m.tableStream table).isSome) then
      reject "split key not token-aligned for a streamed table"
    else if (source.range.splitAt splitKey).isNone then reject "split key not strictly inside range"
    else .ok (((m.reserve left.id).reserve right.id).setTablet parent { source with
        state := .splitting, inplaceSplit := some ⟨splitKey, left, right⟩
        epoch := source.epoch + 1 })

/-- What all children of one cutover share. -/
structure Cutover where
  parent : TabletId
  table : Option TableName
  policy : Option PlacementPolicy
  parentsFinalEpoch : Option UInt64
  cutoverWallMs : Nat
  candidates : List Candidate
  load : Option Load

/-- The replica set that placement would choose for a child now. -/
def Cutover.wanted (cut : Cutover) (policy : PlacementPolicy) : Except PlacementError (List NodeId) :=
  match cut.load with
  | none => selectReplicas cut.candidates policy
  | some load => selectReplicasBalanced cut.candidates policy load

/-- The obligation to move a child to its placement, if it is not there yet. -/
def Cutover.placing (cut : Cutover) (replicas : List NodeId) : Option SplitPlacing :=
  cut.policy.bind fun policy =>
    match cut.wanted policy with
    | .ok wanted => if wanted = replicas then none else some ⟨some wanted, false⟩
    | .error _ => some ⟨none, false⟩

/-- Put a child of a split into the tablet map. -/
def cutoverChild (cut : Cutover) (child : SplitChild) (range : KeyRange) : Metadata :=
  let t := Tablet.withTable child.id cut.table range child.replicas
  let m := m.insertTablet child.id { t with state := .active, epoch := t.epoch + 1 }
  { m with
    policies := cut.policy.elim m.policies fun policy => m.policies.insert child.id policy
    splitLineage := m.splitLineage.insert child.id ⟨cut.parent, cut.parentsFinalEpoch, cut.cutoverWallMs⟩
    splitPlacing := (cut.placing t.replicas).elim m.splitPlacing fun entry =>
      m.splitPlacing.insert child.id entry }

def lastStreamEpoch : Option UInt64 :=
  ((m.streamShards.keys.filter fun key => key.1 = tablet).map Prod.snd).getLast?

def cutoverSplit (parent : TabletId) (expectedEpoch : Epoch) (cutoverWallMs : Nat) : Arm Metadata := do
  let source ← orReject "no such tablet" m.tablets[parent]?
  if source.epoch ≠ expectedEpoch then reject "epoch mismatch"
  else if source.state ≠ .splitting then reject "tablet is not Splitting"
  else
    let intent ← orReject "splitting parent has no in-place split intent" source.inplaceSplit
    let (leftRange, rightRange) ← orReject "split key not strictly inside range"
      (source.range.splitAt intent.splitKey)
    if m.tablets.contains intent.left.id || m.tablets.contains intent.right.id then
      reject "child tablet id already occupied — allocator invariant violated"
    else
      let capacity := m.effectiveCapacities
      let cut : Cutover := {
        parent, cutoverWallMs
        table := source.table, policy := m.policies[parent]?, parentsFinalEpoch := m.lastStreamEpoch parent
        candidates := activeCandidates m.members capacity
        load := if capacity.isEmpty then none else some (replicaLoad m.tablets) }
      let m := ((m.cutoverChild cut intent.left leftRange).cutoverChild cut intent.right
        rightRange).removeTablet parent
      .ok { m with policies := m.policies.erase parent }

def repairSettled (epoch : Epoch) : Arm Metadata := do
  let t ← orReject "no such tablet" m.tablets[tablet]?
  if t.epoch ≠ epoch then reject "epoch mismatch"
  else if t.settledEpoch = some epoch then unchanged
  else .ok (m.setTablet tablet { t with settledEpoch := some epoch })

/-- The placement entry of a tablet at an epoch, for the commands that change it. -/
def openPlacing : Arm SplitPlacing := do
  let t ← orReject "no such tablet" m.tablets[tablet]?
  if t.epoch ≠ expectedEpoch then reject "epoch mismatch"
  else
    let entry ← orReject "no split_placing entry for this tablet" m.splitPlacing[tablet]?
    if entry.done then unchanged else .ok entry

def markSplitPlacingDone : Arm Metadata := do
  let entry ← m.openPlacing tablet expectedEpoch
  .ok { m with splitPlacing := m.splitPlacing.insert tablet { entry with done := true } }

def retargetSplitPlacing (target : Option (List NodeId)) : Arm Metadata := do
  let entry ← m.openPlacing tablet expectedEpoch
  if entry.target = target then unchanged
  else .ok { m with splitPlacing := m.splitPlacing.insert tablet { entry with target } }

def setTabletPolicy (policy : Option PlacementPolicy) : Arm Metadata :=
  if !m.tablets.contains tablet then reject "no such tablet"
  else .ok { m with policies := policy.elim (m.policies.erase tablet) fun p => m.policies.insert tablet p }

def dropTablet : Metadata :=
  let m := m.removeTablet id
  { m with policies := m.policies.erase id }

def dropTableTablets : Arm Metadata :=
  let dropped := (m.tabletsForTable table).map Prod.fst
  if dropped.isEmpty then unchanged
  else
    let m := dropped.foldl dropTablet m
    .ok { m with
      indexBackfill := m.indexBackfill.filter fun key _ => !dropped.contains key.1
      splitPlacing := m.splitPlacing.filter fun tablet _ => !dropped.contains tablet }

/-- Names that start so belong to the system. -/
def reservedNamespace : String := "__animus_system"

def isReservedName (name : String) : Bool := reservedNamespace.toList.isPrefixOf name.toList

/-- A user table's name may not contain it. -/
def reservedTableNameSeparator : Char := '$'

def updateSchema (missing : String) (table : TableName) (f : TableSchema → Arm TableSchema) : Arm Metadata := do
  let schema ← orReject missing m.schemas[table]?
  let schema ← f schema
  .ok { m with schemas := m.schemas.insert table schema }

def noSuchSchema : String := "no such table schema"

def createTableSchema (schema : TableSchema) : Arm Metadata :=
  if isReservedName table then reject "table name collides with the reserved system namespace"
  else if table.toList.contains reservedTableNameSeparator then
    reject "table name may not contain the reserved \x60$\x60 separator"
  else if m.schemas.contains table then reject "table schema already exists"
  else if !schema.isValid then reject "malformed table schema"
  else .ok { m with schemas := m.schemas.insert table schema }

def dropTableSchema : Arm Metadata :=
  if m.schemas.contains table then .ok { m with schemas := m.schemas.erase table } else unchanged

def replaceTableSchema (schema : TableSchema) : Arm Metadata :=
  m.updateSchema "no schema to replace for table" table fun existing =>
    if !schema.isValid then reject "malformed table schema"
    else if existing = schema then unchanged
    else .ok schema

def createTableIndex (index : IndexDef) : Arm Metadata :=
  m.updateSchema noSuchSchema table fun schema =>
    if schema.isGlobalStrong && index.kind = .local then reject "global table cannot have a local index"
    else if !(schema.upsertIndex index).isValid then reject "malformed table index"
    else .ok (schema.upsertIndex index)

def dropTableIndex (index : String) : Arm Metadata :=
  match m.schemas[table]?.bind fun schema => schema.removeIndex index with
  | none => unchanged
  | some schema =>
    let tableTablets := (m.tabletsForTable table).map Prod.fst
    .ok { m with
      schemas := m.schemas.insert table schema
      indexBackfill := m.indexBackfill.filter fun key _ => !(key.2 = index && tableTablets.contains key.1) }

def setIndexStatus (index : String) (status : IndexStatus) : Arm Metadata :=
  m.updateSchema noSuchSchema table fun schema => do
    let current ← orReject "no such table index" (schema.index index)
    if current.status = status then unchanged else .ok (schema.setIndexStatus index status)

def markIndexBackfilled (index : String) (tablet : TabletId) : Arm Metadata := do
  let schema ← orReject noSuchSchema m.schemas[table]?
  if (schema.index index).isNone then reject "no such table index"
  else if !m.tablets[tablet]?.any (fun t => t.table = some table) then reject "tablet is not scoped to this table"
  else if m.indexBackfill.contains (tablet, index) then unchanged
  else .ok { m with indexBackfill := m.indexBackfill.insert (tablet, index) () }

def setTableStream (spec : Option StreamSpec) : Arm Metadata :=
  m.updateSchema noSuchSchema table fun schema =>
    match spec with
    | some newSpec =>
      if schema.stream.isSome then
        reject "table stream already enabled (disable before re-enabling to mint a new label)"
      else .ok { schema with stream := some newSpec }
    | none => if schema.stream.isNone then unchanged else .ok { schema with stream := none }

def setTableTtl (spec : Option TtlSpec) : Arm Metadata :=
  m.updateSchema noSuchSchema table fun schema =>
    if spec.isSome && schema.isGlobalStrong then reject "global table cannot have TTL enabled"
    else if schema.ttl = spec then unchanged
    else .ok { schema with ttl := spec }

def setTableThroughput (spec : Option ProvisionedThroughput) : Arm Metadata :=
  m.updateSchema noSuchSchema table fun schema =>
    if schema.throughput = spec then unchanged else .ok { schema with throughput := spec }

/-- The loop over the tags to set, and whether one changed. -/
def setTags (tags : OrdMap String String) : List (String × String) → OrdMap String String × Bool
  | [] => (tags, false)
  | (key, value) :: rest =>
    if tags[key]? = some value then setTags tags rest
    else ((setTags (tags.insert key value) rest).1, true)

def tagResource (tags : OrdMap String String) : Arm Metadata :=
  m.updateSchema noSuchSchema table fun schema =>
    match setTags schema.tags tags.toList with
    | (tags, true) => .ok { schema with tags }
    | (_, false) => unchanged

/-- The loop over the tags to remove, and whether one was there. -/
def removeTags (tags : OrdMap String String) : List String → OrdMap String String × Bool
  | [] => (tags, false)
  | key :: rest =>
    if tags.contains key then ((removeTags (tags.erase key) rest).1, true) else removeTags tags rest

def untagResource (tagKeys : List String) : Arm Metadata :=
  m.updateSchema noSuchSchema table fun schema =>
    match removeTags schema.tags tagKeys with
    | (tags, true) => .ok { schema with tags }
    | (_, false) => unchanged

def updateContinuousBackups (enabled : Bool) (wallMs : Nat) : Arm Metadata := do
  let schema ← orReject noSuchSchema m.schemas[table]?
  if enabled then
    if schema.pitr.isSome then unchanged
    else
      let generation := m.pitrGeneration[table]?.getD 0 + 1
      .ok { m with
        pitrGeneration := m.pitrGeneration.insert table generation
        schemas := m.schemas.insert table { schema with pitr := some ⟨generation, wallMs⟩ } }
  else if schema.pitr.isNone then unchanged
  else .ok { m with schemas := m.schemas.insert table { schema with pitr := none } }

def setTablePolicies (policy : PlacementPolicy) : Metadata :=
  { m with
    policies := (m.tabletsForTable table).foldl
      (fun policies entry => policies.insert entry.1 policy) m.policies }

/-- Refuse with the message of a spec error. -/
def checkSpec (spec : GlobalTableSpec) : Arm Unit :=
  match spec.validate with
  | .ok () => .ok ()
  | .error e => reject e.message

def convertTableToGlobal (spec : GlobalTableSpec) : Arm Metadata := do
  let schema ← orReject noSuchSchema m.schemas[table]?
  match schema.global with
  | some existing => if existing = spec then unchanged else reject "table is already a global table"
  | none =>
    if !spec.isMrsc then reject "ConvertTableToGlobal takes a strong spec (use ConvertTableToMrec)"
    else
      checkSpec spec
      if schema.ttl.isSome then reject "global table cannot have TTL enabled"
      else if schema.indexes.any (fun i => i.kind = .local) then
        reject "global table cannot have a local index"
      else if (m.tabletsForTable table).isEmpty then reject "table has no tablets to convert"
      else
        let m := m.setTablePolicies table (.mrsc ("mrsc:" ++ table) spec.regions)
        .ok { m with schemas := m.schemas.insert table { schema with global := some spec } }

def setGlobalPreferredLeader : Arm Metadata :=
  m.updateSchema noSuchSchema table fun schema => do
    let global ← orReject "table is not a global table" schema.global
    if !global.regions.contains region then reject "preferred-leader region is not one of the table's regions"
    else if global.witness = some region then reject "preferred-leader region is the witness"
    else if global.preferredLeaderRegion = region then unchanged
    else .ok { schema with global := some { global with preferredLeaderRegion := region } }

def revertGlobalToRegional (keepRegion : String) : Arm Metadata := do
  let schema ← orReject noSuchSchema m.schemas[table]?
  match schema.global with
  | none => unchanged
  | some global =>
    if !global.isMrsc then reject "table is not a strongly consistent global table"
    else if !global.regions.contains keepRegion then reject "kept region is not one of the table's regions"
    else if global.witness = some keepRegion then reject "kept region is the witness"
    else
      let kept := (m.members.values.filter fun member =>
        member.status ≠ .leaving && member.labels[regionLabel]? = some keepRegion).map Member.labels
      if kept.isEmpty then reject "no cluster member carries the kept region"
      else
        let policy := (zoneSpreadPolicy ("regional:" ++ table) (min kept.length 3) kept).allowValues
          regionLabel [keepRegion]
        let m := m.setTablePolicies table policy
        .ok { m with schemas := m.schemas.insert table { schema with global := none } }

/-- A table replicated eventually, with this region as its only replica so far. -/
def localMrecSpec (regionId : UInt32) (legacy : Option LegacyGlobal) : GlobalTableSpec where
  consistency := .eventual
  regions := []
  witness := none
  preferredLeaderRegion := ""
  replicas := [{ region, regionId, status := .active, «local» := true }]
  legacy

/-- A replica of the spec is this region. -/
def hasLocalReplica (spec : GlobalTableSpec) (region : String) (regionId : UInt32) : Bool :=
  spec.isMrec && spec.replicas.any fun r => r.local && r.region = region && r.regionId = regionId

def convertTableToMrec (localRegion : String) (regionId : UInt32) : Arm Metadata :=
  m.updateSchema noSuchSchema table fun schema =>
    match schema.global with
    | some existing =>
      if hasLocalReplica existing localRegion regionId then unchanged else reject "table is already a global table"
    | none => do
        let spec := localMrecSpec localRegion regionId none
        checkSpec spec
        .ok { schema with global := some spec }

def convertTableToLegacyGlobal (localRegion : String) (regionId : UInt32) (createdMs : Nat) : Arm Metadata :=
  m.updateSchema noSuchSchema table fun schema =>
    let legacy : LegacyGlobal := { createdMs }
    match schema.global with
    | some existing =>
      let isLocal := hasLocalReplica existing localRegion regionId
      if isLocal && existing.legacy.isSome then unchanged
      else if isLocal && existing.replicas.length = 1 then
        .ok { schema with global := some { existing with legacy := some legacy } }
      else reject "table is already a global table"
    | none => do
        let spec := localMrecSpec localRegion regionId (some legacy)
        checkSpec spec
        .ok { schema with global := some spec }

/-- Tuples in the order of their first components, then of their second. -/
def notAfter (a b : Nat × Nat) : Bool := a.1 < b.1 || (a.1 = b.1 && a.2 ≤ b.2)

def setLegacyGlobalSettings (billing : GlobalBilling) (stamp origin : Nat) : Arm Metadata :=
  m.updateSchema noSuchSchema table fun schema => do
    let global ← orReject "table is not a legacy global table" (schema.global.filter GlobalTableSpec.isMrec)
    let legacy ← orReject "table is not a legacy global table" global.legacy
    if billing = .provisioned 0 then reject GlobalSpecError.legacyWriteUnits.message
    else if notAfter (stamp, origin) legacy.order then unchanged
    else .ok { schema with
      global := some { global with legacy := some { legacy with billing := some billing, stamp, origin } }
      throughput := match billing with
        | .payPerRequest => none
        | .provisioned writeUnits =>
          some ⟨schema.throughput.elim writeUnits ProvisionedThroughput.readUnits, writeUnits⟩ }

def updateMrec (f : GlobalTableSpec → Arm GlobalTableSpec) : Arm Metadata :=
  m.updateSchema "table is not an MREC global table" table fun schema => do
    let spec ← orReject "table is not an MREC global table" (schema.global.filter GlobalTableSpec.isMrec)
    let spec ← f spec
    .ok { schema with global := some spec }

def addMrecReplica (regionId : UInt32) : Arm Metadata :=
  m.updateMrec table fun spec =>
    match spec.replicas.find? (·.region = region) with
    | some existing =>
      if existing.regionId = regionId then unchanged else reject "replica already exists with a different region id"
    | none => do
        let candidate := { spec with
          replicas := spec.replicas ++ [{ region, regionId, status := .creating, «local» := false }] }
        checkSpec candidate
        .ok candidate

/-- The first replica of the region leaves the list. -/
def eraseReplica (replicas : List MrecReplica) : List MrecReplica := replicas.eraseP (·.region = region)

def removeMrecReplica : Arm Metadata :=
  m.updateSchema "table is not an MREC global table" table fun schema => do
    let spec ← orReject "table is not an MREC global table" (schema.global.filter GlobalTableSpec.isMrec)
    match spec.replicas.find? (·.region = region) with
    | none => unchanged
    | some replica =>
      if replica.local then reject "cannot remove the local replica"
      else
        let replicas := eraseReplica region spec.replicas
        if spec.legacy.isSome && replicas.length = 1 then .ok { schema with global := none }
        else .ok { schema with global := some { spec with replicas } }

def updateReplica (region : String) (f : MrecReplica → Arm MrecReplica) :
    List MrecReplica → Arm (List MrecReplica)
  | [] => reject "no such MREC replica"
  | r :: rest =>
    if r.region = region then do
      let r ← f r
      .ok (r :: rest)
    else do
      let rest ← updateReplica region f rest
      .ok (r :: rest)

def updateMrecReplica (f : MrecReplica → Arm MrecReplica) : Arm Metadata :=
  m.updateMrec table fun spec => do
    let replicas ← updateReplica region f spec.replicas
    .ok { spec with replicas }

def setMrecReplicaStatus (status : MrecReplicaStatus) : Arm Metadata :=
  m.updateMrecReplica table region fun replica =>
    if replica.status = status then unchanged else .ok { replica with status }

def markMrecCopied (tablet : UInt64) : Arm Metadata :=
  m.updateMrecReplica table region fun replica =>
    if replica.copied.contains tablet then unchanged else
      .ok { replica with copied := replica.copied.insert tablet }

def setMrecReplicaOverrides (overrides : MrecReplicaOverrides) : Arm Metadata :=
  m.updateMrecReplica table region fun replica =>
    match overrides.validate with
    | .error reason => reject reason
    | .ok () =>
      if notAfter overrides.order replica.overrides.order then unchanged else .ok { replica with overrides }

def sealStreamShard (epoch : UInt64) (row : StreamShardRow) : Arm Metadata :=
  match m.streamShards[(tablet, epoch)]? with
  | some existing =>
    -- a repeated seal may only bring a new replica list
    if { existing with replicas := row.replicas, expired := row.expired } ≠ row ∨
      existing.replicas = row.replicas then
      unchanged
    else .ok { m with
      streamShards := m.streamShards.insert (tablet, epoch) { existing with replicas := row.replicas } }
  | none =>
    let currentLabel := (m.tableStream row.table).any fun spec => spec.label = row.label
    let existingRow := m.streamShards.values.any fun r => r.table = row.table && r.label = row.label
    if !currentLabel && !existingRow then
      reject "stream label has no current schema entry and no existing catalog rows to extend"
    else if 0 < epoch && !m.streamShards.contains (tablet, epoch - 1) then
      reject "epoch chain gap: no prior epoch row for this tablet"
    else .ok { m with streamShards := m.streamShards.insert (tablet, epoch) row }

def sealPitrSegment (epoch : UInt64) (row : PitrSegmentRow) : Arm Metadata :=
  match m.pitrSegments[(tablet, epoch)]? with
  | some existing =>
    if { existing with replicas := row.replicas, expired := row.expired } ≠ row ∨
      existing.replicas = row.replicas then
      unchanged
    else .ok { m with
      pitrSegments := m.pitrSegments.insert (tablet, epoch) { existing with replicas := row.replicas } }
  | none =>
    let currentGeneration :=
      (m.schemas[row.table]?.bind TableSchema.pitr).any fun spec => spec.generation = row.generation
    let existingRow := m.pitrSegments.values.any fun r => r.table = row.table && r.generation = row.generation
    if !currentGeneration && !existingRow then
      reject "PITR generation has no current schema entry and no existing catalog rows to extend"
    else if 0 < epoch && !m.pitrSegments.contains (tablet, epoch - 1) then
      reject "epoch chain gap: no prior epoch row for this tablet"
    else .ok { m with pitrSegments := m.pitrSegments.insert (tablet, epoch) row }

/-- The loop that removes rows or marks them expired, and whether one changed. -/
def expireRows {α : Type} (isExpired : α → Bool) (expire : α → α) (remove : Bool)
    (map : OrdMap (TabletId × UInt64) α) : List (TabletId × UInt64) → OrdMap (TabletId × UInt64) α × Bool
  | [] => (map, false)
  | key :: rest =>
    match map[key]? with
    | none => expireRows isExpired expire remove map rest
    | some row =>
      if remove then ((expireRows isExpired expire remove (map.erase key) rest).1, true)
      else if isExpired row then expireRows isExpired expire remove map rest
      else ((expireRows isExpired expire remove (map.insert key (expire row)) rest).1, true)

def expireStreamShards (rows : List (TabletId × UInt64)) (remove : Bool) : Arm Metadata :=
  match expireRows StreamShardRow.expired (fun row => { row with expired := true }) remove m.streamShards rows with
  | (streamShards, true) => .ok { m with streamShards }
  | (_, false) => unchanged

def expirePitrSegments (rows : List (TabletId × UInt64)) (remove : Bool) : Arm Metadata :=
  match expireRows PitrSegmentRow.expired (fun row => { row with expired := true }) remove m.pitrSegments rows with
  | (pitrSegments, true) => .ok { m with pitrSegments }
  | (_, false) => unchanged

def upsertMember (labels : Labels) (status : NodeStatus) : Arm Metadata :=
  let hasActivated := m.members[node]?.any Member.hasActivated || status = .active
  -- an empty set of labels does not wipe the labels on file
  let labels := match m.members[node]? with
    | some member => if labels.isEmpty && !member.labels.isEmpty then member.labels else labels
    | none => labels
  .ok { m with members := m.members.insert node ⟨labels, status, hasActivated⟩ }

def registerNodeAddrs (addrs : NodeAddrs) : Arm Metadata :=
  if !m.members.contains node && !m.nodeAddrs.contains node then
    reject "node id not yet a registered member — register it via MetaCommand::RegisterNode first"
  else if m.nodeAddrs[node]? = some addrs then unchanged
  else .ok { m with nodeAddrs := m.nodeAddrs.insert node addrs }

def forgetNode : Metadata :=
  { m with
    members := m.members.erase node, nodeAddrs := m.nodeAddrs.erase node,
    nodeVersions := m.nodeVersions.erase node
    nodeCapacity := m.nodeCapacity.erase node }

def removeMember : Arm Metadata :=
  match m.members[node]? with
  | none =>
    if m.nodeAddrs.contains node || m.nodeVersions.contains node || m.nodeCapacity.contains node then
      .ok (m.forgetNode node)
    else unchanged
  | some member =>
    if member.status = .active ∨
      member.status = .joining then reject "not drained: member is Active or Joining"
    else if 0 < m.tabletsReferencing node then reject "still referenced by a tablet's replica set"
    else .ok (m.forgetNode node)

def reportNodeVersion (range : VersionRange) (build : String) : Arm Metadata :=
  if !m.members.contains node &&
    !m.nodeAddrs.contains node then reject "version report from an unregistered node"
  else if !range.isValid then reject "invalid version range (empty or inverted)"
  else if !range.contains m.clusterVersionOrFirst then
    reject "version range excludes the current cluster version"
  else if m.nodeVersions[node]? = some ⟨range, build⟩ then unchanged
  else .ok { m with
    nodeVersions := m.nodeVersions.insert node ⟨range, build⟩
    clusterVersion := if m.clusterVersion = 0 then 1 else m.clusterVersion }

/-- The loop over the nodes that must support the next version. -/
def checkVersions (target : ClusterVersion) : List NodeId → Arm Unit
  | [] => .ok ()
  | node :: rest =>
    match m.nodeVersions[node]? with
    | none => reject "blocked: a registered node has not reported its version"
    | some v =>
      if !v.range.contains target then reject "blocked: a registered node's range excludes the target version"
      else checkVersions target rest

def finalizeClusterVersion (expected target : ClusterVersion) : Arm Metadata := do
  if !m.versioningActive then reject "version era not active"
  else if expected ≠ m.clusterVersionOrFirst then reject "expected version is not the current cluster version"
  else if expected.toNat + 1 ≠ target.toNat then reject "target must be exactly expected + 1"
  else if m.members.values.any (fun member => member.finalizeBlockReason.isSome) then
    reject "blocked: a member is Down, Leaving, or a never-activated Joining"
  else
    m.checkVersions target m.requiredVersionSet
    .ok { m with clusterVersion := target }

def setNodeCapacity (capacity : Capacity) : Arm Metadata :=
  if !m.members.contains node then
    reject "node id not a data-plane member — register it via MetaCommand::RegisterNode first"
  else if capacity.weight = 0 then reject "capacity weight must be at least 1"
  else if capacity = .default then
    if m.nodeCapacity.contains node then
      .ok { m with nodeCapacity := m.nodeCapacity.erase node } else unchanged
  else if m.nodeCapacity[node]? = some capacity then unchanged
  else .ok { m with nodeCapacity := m.nodeCapacity.insert node capacity }

/-- Declare a capacity for a node that has none, if it is worth declaring. -/
def fillNodeCapacity (capacity : Option Capacity) : Option Metadata :=
  match capacity with
  | some c =>
    if 1 ≤ c.weight ∧ c ≠ .default ∧ !m.nodeCapacity.contains node then
      some { m with nodeCapacity := m.nodeCapacity.insert node c }
    else none
  | none => none

def fillEmptyLabels (labels : Labels) : Option Metadata :=
  match m.members[node]? with
  | some member =>
    if member.labels.isEmpty && !labels.isEmpty then
      some { m with members := m.members.insert node { member with labels } }
    else none
  | none => none

/-- A node that has registered and not been seen alive. -/
def enrol (labels : Labels) : Metadata :=
  { m with members := m.members.insert node ⟨labels, .down, false⟩ }

def registerNode (addrs : NodeAddrs) (labels : Labels) (capacity : Option Capacity) : Arm Metadata :=
  let claimsMembership := addrs.role ≠ "control"
  match m.nodeAddrs[node]? with
  | some existing =>
    if existing ≠ addrs then reject "node id already claimed by a different registration"
    else if !claimsMembership then unchanged
    else if !m.members.contains node then
      let m := m.enrol node labels
      .ok ((m.fillNodeCapacity node capacity).getD m)
    else
      let labelled := m.fillEmptyLabels node labels
      let m := labelled.getD m
      let sized := m.fillNodeCapacity node capacity
      if labelled.isSome || sized.isSome then .ok (sized.getD m) else unchanged
  | none =>
    let m := { m with nodeAddrs := m.nodeAddrs.insert node addrs }
    if !claimsMembership then .ok m
    else
      let m := if !m.members.contains node then m.enrol node labels else (m.fillEmptyLabels node labels).getD m
      .ok ((m.fillNodeCapacity node capacity).getD m)

def beginBackup (table : TableName) (createdWallMs : Nat) (backupName : String) (pitrBase : Bool) :
    Arm Metadata := do
  if m.backups.contains backupId then reject "backup id already exists"
  else
    let schema ← orReject noSuchSchema m.schemas[table]?
    let pinnedTablets := ((m.tabletsForTable table).filter fun entry => entry.2.state ≠ .building).map fun entry =>
      (⟨entry.1, entry.2.range⟩ : BackupPinnedTablet)
    .ok { m with
      backups := m.backups.insert backupId ⟨table, backupName, .creating, ⟨schema, pinnedTablets, createdWallMs⟩, 0⟩
      pitrBaseBackups := if pitrBase then m.pitrBaseBackups.insert backupId () else m.pitrBaseBackups }

def creatingBackup : Arm BackupRow := do
  let row ← orReject "no such backup" m.backups[backupId]?
  if row.status ≠ .creating then reject "backup is not Creating" else .ok row

def recordBackupTabletComplete (tablet : TabletId) (progress : BackupTabletProgress) :
    Arm Metadata := do
  let row ← m.creatingBackup backupId
  if !m.tracesToPinned row.manifest.pinnedTablets tablet then reject "tablet is not pinned in this backup"
  else match m.backupTabletProgress[(backupId, tablet)]? with
    | some existing =>
      if existing = progress then unchanged else reject "tablet already reported a different completion"
    | none => .ok { m with backupTabletProgress := m.backupTabletProgress.insert (backupId, tablet) progress }

def completeBackup : Arm Metadata := do
  let row ← m.creatingBackup backupId
  if !row.manifest.pinnedTablets.all (fun t => m.pinnedTabletCaptureComplete backupId t.tablet) then
    reject "not every pinned tablet has reported completion"
  else .ok { m with
    backups := m.backups.insert backupId
      { row with status := .available, totalBytes := m.backupTotalBytes backupId } }

def failBackup (reason : String) : Arm Metadata := do
  let row ← orReject "no such backup" m.backups[backupId]?
  match row.status with
  | .available | .expired => reject "backup is not in a failable state"
  | .creating | .failed _ =>
    if row.status = .failed reason then unchanged
    else .ok { m with backups := m.backups.insert backupId { row with status := .failed reason } }

def deleteBackup : Arm Metadata :=
  if !m.backups.contains backupId then unchanged
  else .ok { m with
    backups := m.backups.erase backupId
    backupTabletProgress := m.backupTabletProgress.filter fun key _ => key.1 ≠ backupId
    pitrBaseBackups := m.pitrBaseBackups.erase backupId }

def markBackupDeleted : Arm Metadata := do
  let row ← orReject "no such backup" m.backups[backupId]?
  if m.backupReferencedByALiveRestore backupId then reject "backup is referenced by a restore still in progress"
  else match row.status with
    | .expired => unchanged
    | .creating => reject "backup is not in a deletable state"
    | .available | .failed _ =>
      .ok { m with backups := m.backups.insert backupId { row with status := .expired } }

def beginExport (exportId : ExportId) (row : ExportRow) : Arm Metadata :=
  if m.exports.contains exportId then reject "export id already exists"
  else if !m.hasTableSchema row.table then reject noSuchSchema
  else .ok { m with exports := m.exports.insert exportId row }

def completeExport (exportId : ExportId) (itemCount billedSizeBytes : Nat) (exportManifest : String)
    (completedWallMs : Nat) : Arm Metadata := do
  let row ← orReject "no such export" m.exports[exportId]?
  if row.status ≠ .inProgress then reject "export is not InProgress"
  else .ok { m with exports := m.exports.insert exportId { row with
    status := .completed, itemCount, billedSizeBytes, exportManifest := some exportManifest
    completedWallMs := some completedWallMs } }

def failExport (exportId : ExportId) (reason : String) (completedWallMs : Nat) : Arm Metadata := do
  let row ← orReject "no such export" m.exports[exportId]?
  match row.status with
  | .completed => reject "export is not in a failable state"
  | .inProgress | .failed _ =>
    if row.status = .failed reason then unchanged
    else .ok { m with exports := m.exports.insert exportId { row with
      status := .failed reason, completedWallMs := some completedWallMs } }

def buildingTablet (table : TableName) (replicas : List NodeId) : Tablet :=
  { Tablet.withTable tablet (some table) .whole replicas with state := .building }

/-- Activate a tablet that was under construction; the texts name what it was built for. -/
def activate (gone notBuilding : String) (tablet : TabletId) : Arm Metadata := do
  let t ← orReject gone m.tablets[tablet]?
  if t.state ≠ .building then reject notBuilding
  else .ok (m.setTablet tablet { t with state := .active, epoch := t.epoch + 1 })

def beginRestore (restoreId : RestoreId) (backupId : BackupId) (sourceTable targetTable : TableName)
    (tablet : TabletId)
    (replicas : List NodeId) (gsiDefs : List IndexDef) (pitr : Option PitrRestorePlan) : Arm Metadata :=
  if m.restores.contains restoreId then reject "restore id already exists"
  else if m.tablets.contains tablet then reject "tablet already exists"
  else if m.backups[backupId]?.any (fun backup => match backup.status with
      | .expired | .failed _ => true
      | .creating | .available => false) then reject "backup is no longer available to restore from"
  else if tablet < m.nextFreeTabletId then reject "tablet id below the monotonic allocator"
  else
    let m := (m.insertTablet tablet (buildingTablet tablet targetTable replicas)).reserve tablet
    .ok { m with
      restores := m.restores.insert restoreId
        ⟨backupId, sourceTable, targetTable, tablet, gsiDefs, pitr, .seeding⟩ }

def completeRestore (restoreId : RestoreId) : Arm Metadata := do
  let row ← orReject "no such restore" m.restores[restoreId]?
  if row.status ≠ .seeding then reject "restore is not Seeding"
  else
    let m ← m.activate "restore's tablet no longer exists" "restore's tablet is not Building" row.tablet
    .ok { m with restores := m.restores.insert restoreId { row with status := .done } }

def failRestore (restoreId : RestoreId) (reason : String) : Arm Metadata := do
  let row ← orReject "no such restore" m.restores[restoreId]?
  match row.status with
  | .done => reject "restore already completed"
  | .seeding | .failed _ =>
    if row.status = .failed reason then unchanged
    else .ok { m with restores := m.restores.insert restoreId { row with status := .failed reason } }

def beginImport (importId : ImportId) (replicas : List NodeId) (row : ImportRow) : Arm Metadata :=
  if m.imports.contains importId then reject "import id already exists"
  else if m.tablets.contains row.tablet then reject "tablet already exists"
  else if row.tablet < m.nextFreeTabletId then reject "tablet id below the monotonic allocator"
  else
    let m := (m.insertTablet row.tablet (buildingTablet row.tablet row.targetTable replicas)).reserve row.tablet
    .ok { m with imports := m.imports.insert importId row }

def completeImport (importId : ImportId) (processedItemCount importedItemCount errorCount processedSizeBytes : Nat)
    (completedWallMs : Nat) : Arm Metadata := do
  let row ← orReject "no such import" m.imports[importId]?
  if row.status ≠ .inProgress then reject "import is not InProgress"
  else
    let m ← m.activate "import's tablet no longer exists" "import's tablet is not Building" row.tablet
    .ok { m with imports := m.imports.insert importId { row with
      status := .completed, processedItemCount, importedItemCount, errorCount, processedSizeBytes
      completedWallMs := some completedWallMs } }

def failImport (importId : ImportId) (reason : String)
    (processedItemCount importedItemCount errorCount processedSizeBytes : Nat) (completedWallMs : Nat) :
    Arm Metadata := do
  let row ← orReject "no such import" m.imports[importId]?
  match row.status with
  | .completed => reject "import is not in a failable state"
  | .inProgress | .failed _ =>
    if row.status = .failed reason then unchanged
    else .ok { m with imports := m.imports.insert importId { row with
      status := .failed reason, processedItemCount, importedItemCount, errorCount, processedSizeBytes
      completedWallMs := some completedWallMs } }

def putCredential (id : AccessKeyId) (secret : String) (policy : Policy) (enabled : Bool) (now : Nat) :
    Arm Metadata :=
  match m.credentials[id]? with
  | some existing =>
    let secretUnchanged := existing.secret = secret
    if secretUnchanged ∧ existing.policy = policy ∧ existing.enabled = enabled ∧
      existing.updatedAt = now then unchanged
    else
      let previous := if secretUnchanged then existing.previous else none
      .ok { m with
        credentials := m.credentials.insert id
          ⟨secret, previous, policy, enabled, existing.createdAt, now⟩ }
  | none => .ok { m with credentials := m.credentials.insert id ⟨secret, none, policy, enabled, now, now⟩ }

def u64Max : Nat := 2 ^ 64 - 1

def rotateCredential (id : AccessKeyId) (newSecret : String) (graceSecs now : Nat) : Arm Metadata := do
  let existing ← orReject "no such credential" m.credentials[id]?
  let validUntil := min (now + graceSecs) u64Max
  if existing.secret = newSecret ∧ existing.updatedAt = now ∧
    existing.previous.any (fun p => p.validUntil = validUntil) then
    unchanged
  else
    let row := { existing with
      secret := newSecret, previous := some ⟨existing.secret, validUntil⟩, updatedAt := now }
    .ok { m with credentials := m.credentials.insert id row }

def revokeCredential (id : AccessKeyId) : Arm Metadata :=
  if m.credentials.contains id then .ok { m with credentials := m.credentials.erase id } else unchanged

/-- The body of `apply`. -/
def applyInner : MetaCommand → Arm Metadata
  | .noOp => unchanged
  | .upsertMember node labels status => m.upsertMember node labels status
  | .createTablet tablet table range replicas => m.createTablet tablet table range replicas
  | .casTabletReplicas tablet expectedEpoch replicas => m.casTabletReplicas tablet expectedEpoch replicas
  | .beginSplitInPlace parent expectedEpoch splitKey left right =>
    m.beginSplitInPlace parent expectedEpoch splitKey left right
  | .cutoverSplit parent expectedEpoch cutoverWallMs => m.cutoverSplit parent expectedEpoch cutoverWallMs
  | .markSplitPlacingDone tablet expectedEpoch => m.markSplitPlacingDone tablet expectedEpoch
  | .repairSettled tablet epoch => m.repairSettled tablet epoch
  | .retargetSplitPlacing tablet expectedEpoch target => m.retargetSplitPlacing tablet expectedEpoch target
  | .setTabletPolicy tablet policy => m.setTabletPolicy tablet policy
  | .createTableSchema table schema => m.createTableSchema table schema
  | .dropTableSchema table => m.dropTableSchema table
  | .replaceTableSchema table schema => m.replaceTableSchema table schema
  | .dropTableTablets table => m.dropTableTablets table
  | .createTableIndex table index => m.createTableIndex table index
  | .dropTableIndex table index => m.dropTableIndex table index
  | .setIndexStatus table index status => m.setIndexStatus table index status
  | .markIndexBackfilled table index tablet => m.markIndexBackfilled table index tablet
  | .setTableStream table spec => m.setTableStream table spec
  | .setTableTtl table spec => m.setTableTtl table spec
  | .convertTableToGlobal table spec => m.convertTableToGlobal table spec
  | .setGlobalPreferredLeader table region => m.setGlobalPreferredLeader table region
  | .revertGlobalToRegional table keepRegion => m.revertGlobalToRegional table keepRegion
  | .convertTableToMrec table localRegion regionId => m.convertTableToMrec table localRegion regionId
  | .addMrecReplica table region regionId => m.addMrecReplica table region regionId
  | .removeMrecReplica table region => m.removeMrecReplica table region
  | .setMrecReplicaStatus table region status => m.setMrecReplicaStatus table region status
  | .markMrecCopied table region tablet => m.markMrecCopied table region tablet
  | .setMrecReplicaOverrides table region overrides => m.setMrecReplicaOverrides table region overrides
  | .convertTableToLegacyGlobal table localRegion regionId createdMs =>
    m.convertTableToLegacyGlobal table localRegion regionId createdMs
  | .setLegacyGlobalSettings table billing stamp origin =>
    m.setLegacyGlobalSettings table billing stamp origin
  | .setTableThroughput table spec => m.setTableThroughput table spec
  | .tagResource table tags => m.tagResource table tags
  | .untagResource table tagKeys => m.untagResource table tagKeys
  | .updateContinuousBackups table enabled wallMs => m.updateContinuousBackups table enabled wallMs
  | .sealStreamShard table label tablet epoch viewType hlcRange count sealWallMs replicas objectId =>
    m.sealStreamShard tablet epoch ⟨table, label, viewType, hlcRange, count, sealWallMs, replicas, objectId, false⟩
  | .expireStreamShards rows remove => m.expireStreamShards rows remove
  | .sealPitrSegment table generation tablet epoch hlcRange count sealWallMs replicas objectId =>
    m.sealPitrSegment tablet epoch ⟨table, generation, hlcRange, count, sealWallMs, replicas, objectId, false⟩
  | .expirePitrSegments rows remove => m.expirePitrSegments rows remove
  | .registerNodeAddrs node addrs => m.registerNodeAddrs node addrs
  | .removeMember node => m.removeMember node
  | .registerNode node addrs labels capacity => m.registerNode node addrs labels capacity
  | .setNodeCapacity node capacity => m.setNodeCapacity node capacity
  | .reportNodeVersion node range build => m.reportNodeVersion node range build
  | .finalizeClusterVersion expected target => m.finalizeClusterVersion expected target
  | .beginBackup backupId table createdWallMs backupName pitrBase =>
    m.beginBackup backupId table createdWallMs backupName pitrBase
  | .recordBackupTabletComplete backupId tablet cutVersion bytes chunkCount =>
    m.recordBackupTabletComplete backupId tablet ⟨cutVersion, bytes, chunkCount⟩
  | .completeBackup backupId => m.completeBackup backupId
  | .failBackup backupId reason => m.failBackup backupId reason
  | .deleteBackup backupId => m.deleteBackup backupId
  | .markBackupDeleted backupId => m.markBackupDeleted backupId
  | .beginExport exportId table tableArn s3Bucket s3Prefix format exportType exportTimeMs clientToken
      createdWallMs =>
    m.beginExport exportId ⟨table, tableArn, s3Bucket, s3Prefix, format, exportType, exportTimeMs,
      clientToken, .inProgress, createdWallMs, none, 0, 0, none⟩
  | .completeExport exportId itemCount billedSizeBytes exportManifest completedWallMs =>
    m.completeExport exportId itemCount billedSizeBytes exportManifest completedWallMs
  | .failExport exportId reason completedWallMs => m.failExport exportId reason completedWallMs
  | .beginRestore restoreId backupId sourceTable targetTable tablet replicas gsiDefs pitr =>
    m.beginRestore restoreId backupId sourceTable targetTable tablet replicas gsiDefs pitr
  | .completeRestore restoreId => m.completeRestore restoreId
  | .failRestore restoreId reason => m.failRestore restoreId reason
  | .beginImport importId targetTable targetTableArn tableId s3Bucket s3Prefix inputFormat inputCompression
      baseSchema keyTypes gsiDefs throughput tablet replicas clientToken createdWallMs =>
      m.beginImport importId replicas ⟨targetTable, targetTableArn, tableId, s3Bucket, s3Prefix, inputFormat,
        inputCompression, baseSchema, keyTypes, gsiDefs, throughput, tablet, clientToken, .inProgress,
        createdWallMs, none, 0, 0, 0, 0⟩
  | .completeImport importId processedItemCount importedItemCount errorCount processedSizeBytes completedWallMs =>
    m.completeImport importId processedItemCount importedItemCount errorCount processedSizeBytes completedWallMs
  | .failImport importId reason processedItemCount importedItemCount errorCount processedSizeBytes
      completedWallMs =>
    m.failImport importId reason processedItemCount importedItemCount errorCount processedSizeBytes completedWallMs
  | .putCredential id secret policy enabled now => m.putCredential id secret policy enabled now
  | .rotateCredential id newSecret graceSecs now => m.rotateCredential id newSecret graceSecs now
  | .revokeCredential id => m.revokeCredential id

/-- Creating a tablet first rebuilds a stale index. -/
def prepared (command : MetaCommand) : Metadata :=
  match command with
  | .createTablet .. => m.ensureTabletIndex
  | _ => m

def apply (command : MetaCommand) : ApplyOutcome × Metadata :=
  let m := m.prepared command
  match m.applyInner command with
  | .ok m' => (.applied, { m' with placementRev := m'.placementRev + 1 })
  | .error refusal => (refusal.outcome, m)

def run : Metadata → List MetaCommand → Metadata
  | m, [] => m
  | m, command :: rest => run (m.apply command).2 rest

end Metadata

end AnimusDb.Catalog
