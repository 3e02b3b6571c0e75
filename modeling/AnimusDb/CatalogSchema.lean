import AnimusDb.OrderedMaps

/-! Table schemas as the control plane keeps them: columns and keys, secondary indexes, streams, and the
replicas of a global table, with the checks a schema passes before it is stored. -/

open OrderedMaps

namespace AnimusDb.Catalog

abbrev TableName := String

inductive ColumnType where
  | string | number | int | bigInt | bool | binary | uuid
deriving DecidableEq

/-- The attributes that a row of an index carries. -/
inductive IndexProjection where
  | all
  | keysOnly
  | include (attributes : List String)
deriving DecidableEq

inductive IndexKind where
  | global | «local»
deriving DecidableEq

/-- Which images of an item a stream record carries. -/
inductive StreamViewType where
  | newAndOldImages | newImage | oldImage | keysOnly
deriving DecidableEq

/-- A change stream; each time it is enabled it gets a label of its own. -/
structure StreamSpec where
  viewType : StreamViewType
  label : String
deriving DecidableEq

structure TtlSpec where
  attributeName : String
deriving DecidableEq

/-- Point-in-time recovery; each time it is enabled it gets a generation of its own. -/
structure PitrSpec where
  generation : UInt64
  enabledWallMs : Nat
deriving DecidableEq

structure ProvisionedThroughput where
  readUnits : Nat
  writeUnits : Nat
deriving DecidableEq

inductive IndexStatus where
  | creating | active | deleting
deriving DecidableEq

/-- A secondary index, and how far it has been built. -/
structure IndexDef where
  name : String
  kind : IndexKind
  hashAttribute : String
  sortAttribute : Option String
  projection : IndexProjection
  status : IndexStatus
  hashAttributeType : Option ColumnType
  sortAttributeType : Option ColumnType
deriving DecidableEq

structure ColumnDef where
  name : String
  ty : ColumnType
deriving DecidableEq

/-- Replicated synchronously, or by last writer wins. -/
inductive MultiRegionConsistency where
  | strong | eventual
deriving DecidableEq

inductive MrecReplicaStatus where
  | creating | active | deleting | creationFailed
deriving DecidableEq

/-- Read capacities that one replica sets for itself. -/
structure MrecReplicaOverrides where
  readUnits : Option Nat := none
  indexReadUnits : OrdMap String Nat := ∅
  stamp : Nat := 0
  origin : Nat := 0
deriving DecidableEq

/-- Overrides are ordered by their stamp, then by the region they come from. -/
def MrecReplicaOverrides.order (o : MrecReplicaOverrides) : Nat × Nat := (o.stamp, o.origin)

/-- No capacity is zero and no index name is empty. -/
def MrecReplicaOverrides.validate (o : MrecReplicaOverrides) : Except String Unit :=
  if o.readUnits = some 0 ∨ o.indexReadUnits.values.any (· = 0) then
    .error "a read capacity override must be at least 1"
  else if o.indexReadUnits.keys.any (· = "") then .error "an index read capacity override names an empty index"
  else .ok ()

/-- A region that holds the table, with the tablets copied to it so far. -/
structure MrecReplica where
  region : String
  regionId : UInt32
  status : MrecReplicaStatus
  «local» : Bool
  copied : OrdSet UInt64 := ∅
  overrides : MrecReplicaOverrides := {}
deriving DecidableEq

inductive GlobalBilling where
  | payPerRequest
  | provisioned (writeUnits : Nat)
deriving DecidableEq

/-- The settings of a table made with the first version of global tables. -/
structure LegacyGlobal where
  createdMs : Nat := 0
  billing : Option GlobalBilling := none
  stamp : Nat := 0
  origin : Nat := 0
deriving DecidableEq

def LegacyGlobal.order (g : LegacyGlobal) : Nat × Nat := (g.stamp, g.origin)

/-- The regions of a global table; each consistency has fields of its own. -/
structure GlobalTableSpec where
  consistency : MultiRegionConsistency
  regions : List String
  witness : Option String
  preferredLeaderRegion : String
  replicas : List MrecReplica
  legacy : Option LegacyGlobal
deriving DecidableEq

inductive GlobalSpecError where
  | wrongRegionCount | emptyRegion | duplicateRegion | witnessNotInRegions | preferredNotInRegions
  | preferredIsWitness | modeFieldsMixed | mrecReplicaCount | mrecReplicaName | mrecRegionId
  | mrecLocalReplica | legacyWriteUnits
deriving DecidableEq

/-- The texts that the requests are refused with. -/
def GlobalSpecError.message : GlobalSpecError → String
  | .wrongRegionCount => "global table needs exactly three regions"
  | .emptyRegion => "global table region name is empty"
  | .duplicateRegion => "global table regions are not distinct"
  | .witnessNotInRegions => "global table witness is not one of its regions"
  | .preferredNotInRegions => "global table preferred-leader region is not one of its regions"
  | .preferredIsWitness => "global table preferred-leader region is the witness"
  | .modeFieldsMixed => "global table spec mixes strong and eventual fields"
  | .mrecReplicaCount => "global table has no replicas or too many"
  | .mrecReplicaName => "global table replica names are empty or repeated"
  | .mrecRegionId => "global table replica region id is wrong or collides"
  | .mrecLocalReplica => "global table needs exactly one local replica"
  | .legacyWriteUnits => "legacy global table write capacity must be at least 1"

/-- The region's hash (32-bit FNV-1a of its bytes). -/
def mrecRegionId (name : String) : UInt32 :=
  name.toUTF8.toList.foldl (fun h b => (h ^^^ b.toUInt32) * 0x01000193) 0x811c9dc5

namespace GlobalTableSpec

variable (spec : GlobalTableSpec)

def mrscRegions : Nat := 3

def mrecMaxReplicas : Nat := 16

def isMrsc : Bool := spec.consistency = .strong

def isMrec : Bool := spec.consistency = .eventual

/-- The first rule that an eventually consistent table breaks. -/
def validateMrec : Except GlobalSpecError Unit :=
  if spec.regions ≠ [] ∨ spec.witness.isSome ∨ spec.preferredLeaderRegion ≠ "" then .error .modeFieldsMixed
  else if spec.replicas = [] ∨ mrecMaxReplicas < spec.replicas.length then .error .mrecReplicaCount
  else if "" ∈ spec.replicas.map MrecReplica.region ∨ ¬ (spec.replicas.map MrecReplica.region).Nodup then
    .error .mrecReplicaName
  else if ¬ (spec.replicas.map MrecReplica.regionId).Nodup ∨
      spec.replicas.any (fun r => r.regionId ≠ mrecRegionId r.region) then .error .mrecRegionId
  else if spec.replicas.countP MrecReplica.local ≠ 1 then .error .mrecLocalReplica
  else if spec.legacy.bind LegacyGlobal.billing = some (.provisioned 0) then .error .legacyWriteUnits
  else .ok ()

def validate : Except GlobalSpecError Unit :=
  if spec.isMrec then spec.validateMrec
  else if spec.replicas ≠ [] ∨ spec.legacy.isSome then .error .modeFieldsMixed
  else if spec.regions.length ≠ mrscRegions then .error .wrongRegionCount
  else if spec.regions.any (· = "") then .error .emptyRegion
  else if ¬ spec.regions.Nodup then .error .duplicateRegion
  else if spec.witness.any (fun w => !spec.regions.contains w) then .error .witnessNotInRegions
  else if !spec.regions.contains spec.preferredLeaderRegion then .error .preferredNotInRegions
  else if spec.witness = some spec.preferredLeaderRegion then .error .preferredIsWitness
  else .ok ()

end GlobalTableSpec

/-- The schema of a table with everything that is configured for it. -/
structure TableSchema where
  partitionKey : String
  clusteringKeys : List String
  columns : List ColumnDef
  indexes : List IndexDef
  stream : Option StreamSpec
  ttl : Option TtlSpec
  pitr : Option PitrSpec
  throughput : Option ProvisionedThroughput
  tags : OrdMap String String
  global : Option GlobalTableSpec
deriving DecidableEq

inductive SchemaError where
  | noColumns | unknownPartitionKey | unknownClusteringKey | duplicateColumn | partitionKeyIsClustering
  | duplicateClusteringKey | duplicateIndex | localIndexMissingSort
deriving DecidableEq

namespace TableSchema

variable (schema : TableSchema)

def column (name : String) : Option ColumnDef := schema.columns.find? (·.name = name)

/-- The loop over the clustering keys, with those seen so far. -/
def checkClustering (seen : List String) : List String → Except SchemaError Unit
  | [] => .ok ()
  | ck :: rest =>
    if ck = schema.partitionKey then .error .partitionKeyIsClustering
    else if (schema.column ck).isNone then .error .unknownClusteringKey
    else if ck ∈ seen then .error .duplicateClusteringKey
    else checkClustering (ck :: seen) rest

/-- The loop over the indexes, with the names seen so far. -/
def checkIndexes (seen : List String) : List IndexDef → Except SchemaError Unit
  | [] => .ok ()
  | idx :: rest =>
    if idx.name ∈ seen then .error .duplicateIndex
    else if idx.kind = .local ∧ idx.sortAttribute.isNone then .error .localIndexMissingSort
    else checkIndexes (idx.name :: seen) rest

def validate : Except SchemaError Unit := do
  if schema.columns = [] then .error .noColumns
  else if ¬ (schema.columns.map ColumnDef.name).Nodup then .error .duplicateColumn
  else if (schema.column schema.partitionKey).isNone then .error .unknownPartitionKey
  else
    schema.checkClustering [] schema.clusteringKeys
    checkIndexes [] schema.indexes

def isValid : Bool := schema.validate.isOk

def index (name : String) : Option IndexDef := schema.indexes.find? (·.name = name)

def replaceIndex (index : IndexDef) : List IndexDef → List IndexDef
  | [] => []
  | slot :: rest => if slot.name = index.name then index :: rest else slot :: replaceIndex index rest

/-- An index takes the place of its name, a new one comes in the order of names. -/
def upsertIndex (index : IndexDef) : TableSchema :=
  if (schema.index index.name).isSome then { schema with indexes := replaceIndex index schema.indexes }
  else
    { schema with
      indexes := (schema.indexes ++ [index]).insertionSort fun a b => (compare a.name b.name).isLE }

/-- Without the index of this name; `none` if there is none. -/
def removeIndex (name : String) : Option TableSchema :=
  let kept := schema.indexes.filter (·.name ≠ name)
  if kept.length ≠ schema.indexes.length then some { schema with indexes := kept } else none

def setIndexStatus (name : String) (status : IndexStatus) : TableSchema :=
  match schema.index name with
  | some current => { schema with indexes := replaceIndex { current with status } schema.indexes }
  | none => schema

def isGlobalStrong : Bool := schema.global.any GlobalTableSpec.isMrsc

end TableSchema

end AnimusDb.Catalog
