import AnimusDb.ByteCodec
import AnimusDb.CatalogApply
import AnimusDb.ItemKeyLayout

/-! The reserved system keyspace: the key of every row of the control plane's state, in bytes. A key is
three escaped segments, the namespace, the kind of entity and its id. -/

open AnimusDb.Items (escape fromUtf8 fromUtf8_utf8 peelEscaped peelEscaped_escape utf8)
open AnimusDb.Placement (NodeId)
open ByteCodec (be ofBe ofBe_be length_be take_be drop_be)

open List Option

namespace AnimusDb.Catalog

open Metadata (reservedNamespace)

variable (tablet : TabletId) (kind : EntityKind) (id : Bytes)

def strBytes (s : String) : Bytes := utf8 s.toList

/-- `String::from_utf8`. -/
def ofStrBytes (bytes : Bytes) : Option String := (fromUtf8 bytes).map String.ofList

@[simp] theorem ofStrBytes_strBytes (s : String) : ofStrBytes (strBytes s) = some s := by
  rw [ofStrBytes, strBytes, fromUtf8_utf8, map_some, String.ofList_toList]

theorem strBytes_injective {s t : String} (h : strBytes s = strBytes t) : s = t := by
  have hs := ofStrBytes_strBytes s
  rw [h, ofStrBytes_strBytes] at hs
  exact (some.inj hs).symm

/-- `u64::to_be_bytes`. -/
def u64Bytes (n : UInt64) : Bytes := be 8 n.toNat

/-- The number of exactly eight big-endian bytes. -/
def decodeU64 (bytes : Bytes) : Option UInt64 := if bytes.length = 8 then some (.ofNat (ofBe bytes)) else none

@[simp] theorem length_u64Bytes (n : UInt64) : (u64Bytes n).length = 8 := length_be 8 _

theorem ofBe_u64Bytes (n : UInt64) : UInt64.ofNat (ofBe (u64Bytes n)) = n := by
  have hlt : n.toNat < 256 ^ 8 := n.toNat_lt
  rw [u64Bytes, ofBe_be, Nat.mod_eq_of_lt hlt, UInt64.ofNat_toNat]

@[simp] theorem decodeU64_u64Bytes (n : UInt64) : decodeU64 (u64Bytes n) = some n := by
  rw [decodeU64, if_pos (length_u64Bytes n), ofBe_u64Bytes]

/-- The id of a row under a tablet and a further number. -/
def decodeNumberedId : Option (TabletId × UInt64) :=
  if id.length ≠ 16 then none
  else some (.ofNat (ofBe (id.take 8)), .ofNat (ofBe (id.drop 8)))

@[simp] theorem decodeNumberedId_append (tablet epoch : UInt64) :
    decodeNumberedId (u64Bytes tablet ++ u64Bytes epoch) = some (tablet, epoch) := by
  have htake : (u64Bytes tablet ++ u64Bytes epoch).take 8 = u64Bytes tablet := take_be 8 _ _
  have hdrop : (u64Bytes tablet ++ u64Bytes epoch).drop 8 = u64Bytes epoch := drop_be 8 _ _
  rw [decodeNumberedId, if_neg (by simp), htake, hdrop, ofBe_u64Bytes, ofBe_u64Bytes]

/-- The id of a row under a tablet and a name. -/
def decodeNamedId : Option (TabletId × String) :=
  if id.length < 8 then none
  else (ofStrBytes (id.drop 8)).map fun name => (.ofNat (ofBe (id.take 8)), name)

@[simp] theorem decodeNamedId_append (name : String) :
    decodeNamedId (u64Bytes tablet ++ strBytes name) = some (tablet, name) := by
  have htake : (u64Bytes tablet ++ strBytes name).take 8 = u64Bytes tablet := take_be 8 _ _
  have hdrop : (u64Bytes tablet ++ strBytes name).drop 8 = strBytes name := drop_be 8 _ _
  rw [decodeNamedId, if_neg (by simp), htake, hdrop, ofStrBytes_strBytes, map_some, ofBe_u64Bytes]

inductive EntityKind where
  | tablet | member | schema | policy | nodeAddrs | counter | streamShard | indexBackfill | splitLineage
  | splitPlacing | backup | backupProgress | restore | pitrSegment | pitrBaseBackup | credential | exports
  | imports | nodeVersion | nodeCapacity
deriving DecidableEq

namespace EntityKind

def asStr : EntityKind → String
  | .tablet => "tablet"
  | .member => "member"
  | .schema => "schema"
  | .policy => "policy"
  | .nodeAddrs => "node_addrs"
  | .counter => "counter"
  | .streamShard => "stream_shard"
  | .indexBackfill => "index_backfill"
  | .splitLineage => "split_lineage"
  | .splitPlacing => "split_placing"
  | .backup => "backup"
  | .backupProgress => "backup_progress"
  | .restore => "restore"
  | .pitrSegment => "pitr_segment"
  | .pitrBaseBackup => "pitr_base_backup"
  | .credential => "credential"
  | .exports => "export"
  | .imports => "import"
  | .nodeVersion => "node_version"
  | .nodeCapacity => "node_capacity"

def all : List EntityKind :=
  [.tablet, .member, .schema, .policy, .nodeAddrs, .counter, .streamShard, .indexBackfill, .splitLineage,
    .splitPlacing, .backup, .backupProgress, .restore, .pitrSegment, .pitrBaseBackup, .credential, .exports,
    .imports, .nodeVersion, .nodeCapacity]

/-- The kind whose text the segment is. -/
def fromSegment (segment : Bytes) : Option EntityKind := all.find? fun kind => strBytes kind.asStr = segment

theorem asStr_injective {a b : EntityKind} (h : a.asStr = b.asStr) : a = b := by
  revert h
  cases a <;> cases b <;> decide

theorem fromSegment_asStr : fromSegment (strBytes kind.asStr) = some kind := by
  have hmem : kind ∈ all := by cases kind <;> decide
  unfold fromSegment
  cases hfind : all.find? fun k => strBytes k.asStr = strBytes kind.asStr with
  | none => simpa using find?_eq_none.mp hfind kind hmem
  | some found =>
    have heq := find?_some hfind
    rw [asStr_injective (strBytes_injective (of_decide_eq_true heq))]

end EntityKind

def appliedIndexSegment : String := "_applied_index"

def entityKey : Bytes :=
  escape (strBytes reservedNamespace) ++ (escape (strBytes kind.asStr) ++ escape id)

/-- The key of the watermark: the index up to which commands are applied. -/
def appliedIndexKey : Bytes := escape (strBytes reservedNamespace) ++ escape (strBytes appliedIndexSegment)

inductive DecodedKey where
  | entity (kind : EntityKind) (id : Bytes)
  | appliedIndex
deriving DecidableEq

/-- `unescape_one` is the loop of `peel_escaped`. -/
def unescapeOne (bytes : Bytes) : Option (Bytes × Bytes) := peelEscaped bytes

def decodeKey (key : Bytes) : Option DecodedKey := do
  let (ns, rest) ← unescapeOne key
  if ns ≠ strBytes reservedNamespace then none
  else
    let (segment, rest) ← unescapeOne rest
    if segment = strBytes appliedIndexSegment then if rest.isEmpty then some .appliedIndex else none
    else
      let kind ← EntityKind.fromSegment segment
      let (id, rest) ← unescapeOne rest
      if rest.isEmpty then some (.entity kind id) else none

theorem asStr_ne_appliedIndex : strBytes kind.asStr ≠ strBytes appliedIndexSegment := by
  intro h
  have hstr := strBytes_injective h
  revert hstr
  cases kind <;> decide

@[simp] theorem decodeKey_entityKey : decodeKey (entityKey kind id) = some (.entity kind id) := by
  have hlast : unescapeOne (escape id) = some (id, []) := by
    have h := peelEscaped_escape id []
    rwa [append_nil] at h
  simp only [decodeKey, entityKey, unescapeOne, peelEscaped_escape, bind_eq_bind, bind_some, ne_eq,
    not_true_eq_false, if_false, if_neg (asStr_ne_appliedIndex kind), EntityKind.fromSegment_asStr]
  change (unescapeOne (escape id)).bind _ = _
  rw [hlast]
  rfl

@[simp] theorem decodeKey_appliedIndexKey : decodeKey appliedIndexKey = some .appliedIndex := by
  have hlast : unescapeOne (escape (strBytes appliedIndexSegment)) =
    some (strBytes appliedIndexSegment, []) := by
    have h := peelEscaped_escape (strBytes appliedIndexSegment) []
    rwa [append_nil] at h
  simp only [decodeKey, appliedIndexKey]
  rw [show unescapeOne (escape (strBytes reservedNamespace) ++ escape (strBytes appliedIndexSegment)) = _ from
    peelEscaped_escape _ _]
  simp [hlast]

def nextTabletIdCounter : String := "next_tablet_id"

def clusterVersionCounter : String := "cluster_version"

def syskvFormatVersionCounter : String := "syskv_format_version"

def pitrGenerationCounterStart : String := "pitr_gen:"

def pitrGenerationCounterName (table : TableName) : String := pitrGenerationCounterStart ++ table

/-- The table whose generation counter has this id. -/
def pitrGenerationTable : Option TableName := do
  let name ← ofStrBytes id
  let rest ← name.toList.dropPrefix? pitrGenerationCounterStart.toList
  some (String.ofList rest)

def tabletKey (id : TabletId) : Bytes := entityKey .tablet (u64Bytes id)

def memberKey (id : NodeId) : Bytes := entityKey .member (strBytes id)

def nodeVersionKey (id : NodeId) : Bytes := entityKey .nodeVersion (strBytes id)

def nodeCapacityKey (id : NodeId) : Bytes := entityKey .nodeCapacity (strBytes id)

def schemaKey (table : TableName) : Bytes := entityKey .schema (strBytes table)

def policyKey (id : TabletId) : Bytes := entityKey .policy (u64Bytes id)

def nodeAddrsKey (id : NodeId) : Bytes := entityKey .nodeAddrs (strBytes id)

def counterKey (name : String) : Bytes := entityKey .counter (strBytes name)

def splitLineageKey (child : TabletId) : Bytes := entityKey .splitLineage (u64Bytes child)

def splitPlacingKey (child : TabletId) : Bytes := entityKey .splitPlacing (u64Bytes child)

def streamShardKey (epoch : UInt64) : Bytes := entityKey .streamShard (u64Bytes tablet ++ u64Bytes epoch)

def pitrSegmentKey (epoch : UInt64) : Bytes := entityKey .pitrSegment (u64Bytes tablet ++ u64Bytes epoch)

def pitrBaseBackupKey (backupId : BackupId) : Bytes := entityKey .pitrBaseBackup (strBytes backupId)

def indexBackfillKey (index : String) : Bytes :=
  entityKey .indexBackfill (u64Bytes tablet ++ strBytes index)

def backupKey (backupId : BackupId) : Bytes := entityKey .backup (strBytes backupId)

def restoreKey (restoreId : RestoreId) : Bytes := entityKey .restore (strBytes restoreId)

def exportKey (exportId : ExportId) : Bytes := entityKey .exports (strBytes exportId)

def importKey (importId : ImportId) : Bytes := entityKey .imports (strBytes importId)

def credentialKey (id : AccessKeyId) : Bytes := entityKey .credential (strBytes id)

/-- The tablet comes first, as the part of fixed width. -/
def backupProgressKey (backupId : BackupId) (tablet : TabletId) : Bytes :=
  entityKey .backupProgress (u64Bytes tablet ++ strBytes backupId)

def syskvFormatVersionKey : Bytes := counterKey syskvFormatVersionCounter

@[simp] theorem pitrGenerationTable_name (table : TableName) :
    pitrGenerationTable (strBytes (pitrGenerationCounterName table)) = some table := by
  have hname : (pitrGenerationCounterName table).toList = pitrGenerationCounterStart.toList ++ table.toList := by
    rw [pitrGenerationCounterName, String.toList_append]
  have hdrop : (pitrGenerationCounterStart.toList ++ table.toList).dropPrefix?
      pitrGenerationCounterStart.toList = some table.toList := by
    rw [dropPrefix?_eq_some_iff]
    exact ⟨_, rfl, by simp⟩
  rw [pitrGenerationTable, ofStrBytes_strBytes]
  simp [hname, hdrop]

theorem pitrGenerationCounterName_ne {table : TableName} {name : String}
    (h : name.toList.dropPrefix? pitrGenerationCounterStart.toList = none) :
    pitrGenerationCounterName table ≠ name := by
  intro heq
  have htable := pitrGenerationTable_name table
  rw [heq, pitrGenerationTable, ofStrBytes_strBytes] at htable
  simp [h] at htable

end AnimusDb.Catalog
