import AnimusDb.CatalogIds
import AnimusDb.CatalogRows

/-! The mirror of the control plane's state in the system keyspace: which rows an applied command writes.
The rows it writes lead from the state before the command to the state after it, and each of them carries
what the state after it has. -/

open OrderedMaps AnimusDb.Placement Fallible List
open AnimusDb.Tablet (KeyRange)

namespace AnimusDb.Catalog

open Replicated

variable {α : Type} {rows : List RowWrite} {derived : Option (List RowWrite)} {write : Option α → RowWrite}

variable {c : Replicated} {rows' : List RowWrite} {w : RowWrite}

namespace Metadata

/-- A row that is read by an index, which panics if it is absent. -/
def indexed {α : Type} (write : Option α → RowWrite) (row : Option α) :
    Option RowWrite := row.map fun r => write (some r)

/-- A row that is written only if it is there. -/
def ifPresent {α : Type} (write : Option α → RowWrite) (row : Option α) : List RowWrite :=
  row.toList.map fun r => write (some r)

variable (pre post : Metadata)

/-- The rows that the cutover of a parent writes for one of its children. -/
def childRows (child : TabletId) (lineage : SplitLineage) : Option (List RowWrite) := do
  let tablet ← indexed (.tablet child) post.tablets[child]?
  some ([tablet, .splitLineage child (some lineage)] ++ ifPresent (.policy child) post.policies[child]? ++
    ifPresent (.splitPlacing child) post.splitPlacing[child]?)

/-- The rows of the schema and of the policies of all tablets of a table. -/
def policyRows (table : TableName) : List RowWrite :=
  ifPresent (.schema table) post.schemas[table]? ++
    (post.tabletsForTable table).flatMap fun entry => ifPresent (.policy entry.1) post.policies[entry.1]?

/-- What a registered or removed node leaves: its row if it was there. -/
def pruned {α : Type} (write : Option α → RowWrite) (row : Option α) : List RowWrite :=
  if row.isSome then [write none] else []

/-- The rows that an applied command writes, from the states before and after it. Rows that it removes are
known from the state before it only. -/
def deriveRows : MetaCommand → Option (List RowWrite)
  | .noOp => some []
  | .upsertMember node .. => do some [← indexed (.member node) post.members[node]?]
  | .createTablet tablet .. =>
    do some [← indexed (.tablet tablet) post.tablets[tablet]?, .nextTabletId post.nextTabletId]
  | .casTabletReplicas tablet .. | .repairSettled tablet .. =>
    do some [← indexed (.tablet tablet) post.tablets[tablet]?]
  | .beginSplitInPlace parent .. => do
      some [← indexed (.tablet parent) post.tablets[parent]?, .nextTabletId post.nextTabletId]
  | .cutoverSplit parent .. => do
      let children := post.splitLineage.toList.filter fun entry => entry.2.parent = parent
      let rows ← children.mapM fun entry => post.childRows entry.1 entry.2
      some (.tablet parent none :: .policy parent none :: rows.flatten)
  | .setTabletPolicy tablet policy => some [.policy tablet policy]
  | .createTableSchema table schema | .replaceTableSchema table schema => some [.schema table (some schema)]
  | .dropTableSchema table => some [.schema table none]
  | .dropTableTablets table =>
    let dropped := (pre.tabletsForTable table).map Prod.fst
    some ((dropped.flatMap fun id => [.tablet id none, .policy id none]) ++
      ((pre.indexBackfill.keys.filter fun key => dropped.contains key.1).map fun key =>
      .indexBackfill key.1 key.2 none) ++
      (pre.splitPlacing.keys.filter dropped.contains).map fun tablet => .splitPlacing tablet none)
  | .dropTableIndex table index =>
    let tableTablets := (pre.tabletsForTable table).map Prod.fst
    some (ifPresent (.schema table) post.schemas[table]? ++
      (pre.indexBackfill.keys.filter fun key => key.2 = index && tableTablets.contains key.1).map fun key =>
        .indexBackfill key.1 key.2 none)
  | .createTableIndex table .. | .setIndexStatus table .. | .setTableStream table .. | .setTableTtl table ..
  | .setTableThroughput table .. | .tagResource table .. | .untagResource table .. | .setGlobalPreferredLeader
      table ..
  | .convertTableToMrec table .. | .addMrecReplica table .. | .removeMrecReplica table
      .. | .setMrecReplicaStatus table ..
  | .markMrecCopied table .. | .setMrecReplicaOverrides table .. | .convertTableToLegacyGlobal table ..
  | .setLegacyGlobalSettings table .. => some (ifPresent (.schema table) post.schemas[table]?)
  | .convertTableToGlobal table .. | .revertGlobalToRegional table .. => some (post.policyRows table)
  | .updateContinuousBackups table .. =>
    some (ifPresent (.schema table) post.schemas[table]? ++ ifPresent
      (.pitrGeneration table) post.pitrGeneration[table]?)
  | .markIndexBackfilled _ index tablet => some [.indexBackfill tablet index (some ())]
  | .markSplitPlacingDone tablet .. | .retargetSplitPlacing tablet .. => do
      some [← indexed (.splitPlacing tablet) post.splitPlacing[tablet]?]
  | .registerNodeAddrs node addrs => some [.nodeAddrs node (some addrs)]
  | .removeMember node =>
    some (.member node none :: .nodeAddrs node none ::
      (pruned (.nodeVersion node) pre.nodeVersions[node]? ++ pruned (.nodeCapacity node) pre.nodeCapacity[node]?))
  | .setNodeCapacity node _ => some [.nodeCapacity node post.nodeCapacity[node]?]
  | .reportNodeVersion node .. => do
      let version ← indexed (.nodeVersion node) post.nodeVersions[node]?
      some (version :: if pre.versioningActive then [] else [.clusterVersion post.clusterVersion])
  | .finalizeClusterVersion .. => some [.clusterVersion post.clusterVersion]
  | .registerNode node .. => do
      let addrs ← indexed (.nodeAddrs node) post.nodeAddrs[node]?
      some (ifPresent (.member node) post.members[node]? ++ addrs :: ifPresent
        (.nodeCapacity node) post.nodeCapacity[node]?)
  | .sealStreamShard _ _ tablet epoch .. => do
      some [← indexed (.streamShard tablet epoch) post.streamShards[(tablet, epoch)]?]
  | .expireStreamShards rows _ => some (rows.map fun key => .streamShard key.1 key.2 post.streamShards[key]?)
  | .sealPitrSegment _ _ tablet epoch .. => do
      some [← indexed (.pitrSegment tablet epoch) post.pitrSegments[(tablet, epoch)]?]
  | .expirePitrSegments rows _ => some (rows.map fun key => .pitrSegment key.1 key.2 post.pitrSegments[key]?)
  | .beginBackup backupId _ _ _ pitrBase => do
      let backup ← indexed (.backup backupId) post.backups[backupId]?
      some (backup :: if pitrBase then [.pitrBaseBackup backupId (some ())] else [])
  | .recordBackupTabletComplete backupId tablet .. => do
      some [← indexed (.backupProgress backupId tablet) post.backupTabletProgress[(backupId, tablet)]?]
  | .completeBackup backupId | .failBackup backupId _ | .markBackupDeleted backupId => do
      some [← indexed (.backup backupId) post.backups[backupId]?]
  | .deleteBackup backupId =>
    some (.backup backupId none ::
      ((pre.backupTabletProgress.keys.filter fun key => key.1 = backupId).map fun key =>
        .backupProgress key.1 key.2 none) ++ pruned (.pitrBaseBackup backupId) pre.pitrBaseBackups[backupId]?)
  | .beginExport exportId .. | .completeExport exportId .. | .failExport exportId .. => do
      some [← indexed (.exports exportId) post.exports[exportId]?]
  | .beginRestore restoreId _ _ _ tablet .. => do
      some [← indexed (.tablet tablet) post.tablets[tablet]?, .nextTabletId post.nextTabletId,
        ← indexed (.restore restoreId) post.restores[restoreId]?]
  | .completeRestore restoreId => do
      let row ← post.restores[restoreId]?
      some [← indexed (.tablet row.tablet) post.tablets[row.tablet]?, .restore restoreId (some row)]
  | .failRestore restoreId _ => do some [← indexed (.restore restoreId) post.restores[restoreId]?]
  | .beginImport importId _ _ _ _ _ _ _ _ _ _ _ tablet .. => do
      some [← indexed (.tablet tablet) post.tablets[tablet]?, .nextTabletId post.nextTabletId,
        ← indexed (.imports importId) post.imports[importId]?]
  | .completeImport importId .. => do
      let row ← post.imports[importId]?
      some [← indexed (.tablet row.tablet) post.tablets[row.tablet]?, .imports importId (some row)]
  | .failImport importId .. => do some [← indexed (.imports importId) post.imports[importId]?]
  | .putCredential id .. | .rotateCredential id .. =>
    do some [← indexed (.credential id) post.credentials[id]?]
  | .revokeCredential id => some [.credential id none]

/-- Apply a command and derive the rows it writes. There is no result where an index into the new state panics. -/
def applyAndDeriveMirror (command : MetaCommand) : Option (ApplyOutcome × Metadata × List RowWrite) :=
  let (outcome, post) := pre.apply command
  if outcome ≠ .applied then some (outcome, post, [])
  else (deriveRows pre post command).map fun rows => (outcome, post, rows)

variable {post} {row : Option α} {as : List α}

open RowWrite

variable {m : Metadata}

/-- The rows lead from the one state to the other and read it. -/
def Mirrored (m post : Metadata) (derived : Option (List RowWrite)) : Prop :=
  ∃ rows, derived = some rows ∧ rows.foldl install m.toReplicated = post.toReplicated ∧
    Reads post.toReplicated rows

theorem mirrored_of_nodup (rows : List RowWrite)
    (hderived : derived = some rows) (hpost : post.toReplicated = rows.foldl install m.toReplicated)
    (hnodup : (rows.map key).Nodup) : Mirrored m post derived :=
  ⟨rows, hderived, hpost.symm, hpost ▸ reads_of_nodup hnodup⟩

theorem mirrored_of_covers (rows : List RowWrite) (hderived : derived = some rows)
    (hreads : Reads post.toReplicated rows)
    (hcovers : ∀ k, post.toReplicated.rowAt k ≠ m.toReplicated.rowAt k → k ∈ rows.map key) :
      Mirrored m post derived :=
  ⟨rows, hderived, foldl_install_eq hreads hcovers, hreads⟩

theorem mirrored_one (w : RowWrite) (hderived : derived = some [w])
    (hpost : post.toReplicated = w.install m.toReplicated) : Mirrored m post derived :=
  mirrored_of_nodup [w] hderived hpost (nodup_singleton _)

/-- One row is written, and read by an index. -/
theorem mirrored_indexed {r : α} (hrow : row = some r)
    (hpost : post.toReplicated = (write (some r)).install m.toReplicated) :
    Mirrored m post ((indexed write row).bind fun w => some [w]) :=
  mirrored_one _ (by rw [hrow]; rfl) hpost

theorem mirrored_two (w w' : RowWrite) (hderived : derived = some [w, w'])
    (hpost : post.toReplicated = w'.install (w.install m.toReplicated)) (hne : w.key ≠ w'.key) :
    Mirrored m post derived :=
  mirrored_of_nodup [w, w'] hderived hpost (by simpa using hne)

/-- The rows derived from an applied command are its mirror. -/
def Mirrors (m : Metadata) (c : MetaCommand) : Prop :=
  Ensures (fun post => Mirrored m post (deriveRows m post c)) (m.applyInner c)

/-- The commands that change the schema of one table and nothing else. -/
theorem updateSchema_mirrored (missing : String) (table : TableName) (f : TableSchema → Arm TableSchema) :
    Ensures (fun post => Mirrored m post (some (ifPresent (.schema table) post.schemas[table]?)))
    (m.updateSchema missing table f) := by
  simp only [updateSchema, ensures_rules]
  refine fun _ _ => ensures_of_forall fun schema => ?_
  exact mirrored_one (.schema table (some schema)) (by simp [ifPresent]) rfl

theorem reads_ifPresent (h : ∀ r, c.rowAt (write (some r)).key = write row) :
    Reads c (ifPresent write row) := by
  cases row with
  | none => exact forall_mem_nil _
  | some r => exact forall_mem_singleton.mpr (h r).symm

theorem mem_keys_ifPresent {k : SysKey} (hrow : row ≠ none)
    (hk : ∀ r, (write r).key = k) : k ∈ (ifPresent write row).map key := by
  cases row with
  | none => exact absurd rfl hrow
  | some r => simp [ifPresent, hk]

theorem reads_pruned (h : c.rowAt (write none).key = write none) : Reads c (pruned write row) := by
  cases row with
  | none => exact forall_mem_nil _
  | some _ => exact forall_mem_singleton.mpr h.symm

theorem mem_keys_pruned (write : Option α → RowWrite) (hrow : row ≠ none) :
    (write none).key ∈ (pruned write row).map key := by
  simp [pruned, Option.isSome_iff_ne_none.mpr hrow]

theorem changed_erase {κ : Type} [Ord κ] [Std.TransOrd κ] [Std.LawfulEqOrd κ] [DecidableEq κ]
    {map : OrdMap κ α} {a k : κ} (h : (map.erase a)[k]? ≠ map[k]?) : a = k ∧ map[k]? ≠ none := by
  rw [get_erase] at h
  split_ifs at h with heq
  · exact ⟨heq, h.symm⟩
  · exact absurd rfl h

theorem updateContinuousBackups_mirrored (table : TableName) (enabled : Bool) (wallMs : Nat) :
    m.Mirrors (.updateContinuousBackups table enabled wallMs) := by
  simp only [Mirrors, applyInner, updateContinuousBackups, ensures_rules]
  refine fun schema _ => ⟨fun _ _ => ?_, fun _ _ => ?_⟩
  · exact mirrored_two (.schema table (some _)) (.pitrGeneration table
      (some _)) (by simp [deriveRows, ifPresent]) rfl (by simp [key])
  · -- the generation keeps its row, which is written again
    refine mirrored_of_covers _ rfl
      (forall_mem_append.mpr ⟨reads_ifPresent fun _ => rfl, reads_ifPresent fun _ => rfl⟩) ?_
    intro k hk
    cases k with
    | schema t =>
      by_cases ht : table = t
      · subst ht
        simp [ifPresent, key]
      · exact absurd (by simp [rowAt, get_insert, ht]) hk
    | _ => exact absurd rfl hk

theorem reportNodeVersion_mirrored (node : NodeId) (range : VersionRange) (build : String) :
    m.Mirrors (.reportNodeVersion node range build) := by
  simp only [Mirrors, applyInner, reportNodeVersion, ensures_rules]
  intro _ _ _ _
  by_cases hera : m.clusterVersion = 0
  · refine mirrored_two (.nodeVersion node (some ⟨range, build⟩)) (.clusterVersion 1) ?_ ?_ (by simp [key])
    · simp [deriveRows, indexed, versioningActive, hera]
    · rw [if_pos hera]
      rfl
  · refine mirrored_one (.nodeVersion node (some ⟨range, build⟩)) ?_ ?_
    · simp [deriveRows, indexed, versioningActive, hera]
    · rw [if_neg hera]
      rfl

theorem removeMember_mirrored (node : NodeId) : m.Mirrors (.removeMember node) := by
  have hforget : Mirrored m (m.forgetNode node) (deriveRows m (m.forgetNode node) (.removeMember node)) := by
    refine mirrored_of_covers _ rfl ?_ ?_
    · simp only [Reads, forall_mem_cons, forall_mem_append]
      refine ⟨?_, ?_, reads_pruned ?_, reads_pruned ?_⟩ <;> simp [key, rowAt, forgetNode]
    · intro k hk
      rw [map_cons, map_cons, map_append, mem_cons, mem_cons, mem_append]
      cases k with
      | member n =>
        obtain ⟨rfl, -⟩ := changed_erase fun h => hk (congrArg (RowWrite.member n) h)
        exact .inl rfl
      | nodeAddrs n =>
        obtain ⟨rfl, -⟩ := changed_erase fun h => hk (congrArg (RowWrite.nodeAddrs n) h)
        exact .inr (.inl rfl)
      | nodeVersion n =>
        obtain ⟨rfl, hrow⟩ := changed_erase fun h => hk (congrArg (RowWrite.nodeVersion n) h)
        exact .inr (.inr (.inl (mem_keys_pruned (.nodeVersion node) hrow)))
      | nodeCapacity n =>
        obtain ⟨rfl, hrow⟩ := changed_erase fun h => hk (congrArg (RowWrite.nodeCapacity n) h)
        exact .inr (.inr (.inr (mem_keys_pruned (.nodeCapacity node) hrow)))
      | _ => exact absurd rfl hk
  simp only [Mirrors, applyInner, removeMember]
  split
  · simp only [ensures_rules, and_true]
    exact fun _ => hforget
  · simp only [ensures_rules]
    exact fun _ _ => hforget

/-- Rows of one node were set, and nothing else changed. -/
structure NodeSet (node : NodeId) (m post : Metadata) : Prop where
  others : ∀ k : SysKey, k ≠ .member node → k ≠ .nodeAddrs node → k ≠ .nodeCapacity node →
    post.toReplicated.rowAt k = m.toReplicated.rowAt k
  member : post.members[node]? = none → m.members[node]? = none
  capacity : post.nodeCapacity[node]? = none → m.nodeCapacity[node]? = none

variable {node : NodeId}

/-- A registration writes every row of the node that is there afterwards. -/
theorem NodeSet.mirrored (h : NodeSet node m post) (hrow : post.nodeAddrs[node]? ≠ none) (a : NodeAddrs)
    (labels : Labels) (capacity : Option Capacity) :
      Mirrored m post (deriveRows m post (.registerNode node a labels capacity)) := by
  obtain ⟨addrs, haddrs⟩ := Option.ne_none_iff_exists'.mp hrow
  refine mirrored_of_covers (ifPresent (.member node) post.members[node]? ++ .nodeAddrs node (some addrs) ::
    ifPresent (.nodeCapacity node) post.nodeCapacity[node]?) ?_ ?_ ?_
  · simp [deriveRows, indexed, haddrs]
  · simp only [Reads, forall_mem_append, forall_mem_cons]
    exact ⟨reads_ifPresent fun _ => rfl, by simp [key, rowAt, haddrs], reads_ifPresent fun _ => rfl⟩
  · intro k hk
    rw [map_append, map_cons, mem_append, mem_cons]
    by_cases hmember : k = .member node
    · subst hmember
      refine .inl (mem_keys_ifPresent (fun hnone => hk ?_) fun _ => rfl)
      simp [rowAt, hnone, h.member hnone]
    · by_cases hkaddrs : k = .nodeAddrs node
      · exact .inr (.inl hkaddrs)
      · by_cases hcapacity : k = .nodeCapacity node
        · subst hcapacity
          refine .inr (.inr (mem_keys_ifPresent (fun hnone => hk ?_) fun _ => rfl))
          simp [rowAt, hnone, h.capacity hnone]
        · exact absurd (h.others k hmember hkaddrs hcapacity) hk

theorem registerNode_mirrored (node : NodeId) (addrs : NodeAddrs) (labels : Labels)
    (capacity : Option Capacity) : m.Mirrors (.registerNode node addrs labels capacity) := by
  refine Ensures.mono (Q := fun post => NodeSet node m post ∧ post.nodeAddrs[node]? ≠ none) ?_
    fun _ h => h.1.mirrored h.2 addrs labels capacity
  refine ensures_registerNode labels capacity (fun h => ⟨⟨fun _ _ _ _ => rfl, id, id⟩, h⟩)
    ⟨⟨?_, id, id⟩, by simp⟩ ?_ ?_
  · exact fun _ _ hk _ => rowAt_install_of_ne (w := .nodeAddrs node (some addrs)) hk.symm
  · rintro m₀ row ⟨h, haddrs⟩
    refine ⟨⟨fun k h₁ h₂ h₃ => ?_, by simp, h.capacity⟩, haddrs⟩
    exact (rowAt_install_of_ne (w := .member node (some row)) h₁.symm).trans (h.others k h₁ h₂ h₃)
  · rintro m₀ row ⟨h, haddrs⟩
    refine ⟨⟨fun k h₁ h₂ h₃ => ?_, h.member, by simp⟩, haddrs⟩
    exact (rowAt_install_of_ne (w := .nodeCapacity node (some row)) h₃.symm).trans (h.others k h₁ h₂ h₃)

/-- Only the named rows expire. -/
theorem mem_of_expireRows {isExpired : α → Bool} {expire : α → α} {remove : Bool}
    {keys : List (TabletId × UInt64)} {key : TabletId × UInt64} {map : OrdMap (TabletId × UInt64) α}
    {found : OrdMap (TabletId × UInt64) α × Bool} (hrun : expireRows isExpired expire remove map keys = found)
    (hchanged : found.1[key]? ≠ map[key]?) : key ∈ keys := by
  by_contra hkey
  refine hchanged ?_
  subst hrun
  clear hchanged
  induction keys generalizing map with
  | nil => rfl
  | cons k rest ih =>
    have hne : k ≠ key := fun heq => hkey (heq ▸ mem_cons_self)
    have hrest := mt (mem_cons_of_mem k) hkey
    unfold expireRows
    split
    · exact ih hrest
    · split_ifs
      · rw [ih hrest, get_erase, if_neg hne]
      · exact ih hrest
      · rw [ih hrest, get_insert, if_neg hne]

theorem mem_filter_keys {κ : Type} [Ord κ] [Std.TransOrd κ] [Std.LawfulEqOrd κ] {map : OrdMap κ α}
    {p : κ → Bool} {k : κ} (h : (map.filter fun k _ => !p k)[k]? ≠ map[k]?) : k ∈ map.keys.filter p := by
  rw [get_filter] at h
  cases hrow : map[k]? with
  | none => exact absurd (by rw [hrow]; rfl) h
  | some row =>
    rw [hrow] at h
    refine mem_filter.mpr ⟨?_, ?_⟩
    · rw [Std.ExtTreeMap.mem_keys, Std.ExtTreeMap.mem_iff_isSome_getElem?, hrow]
      rfl
    · by_contra hp
      exact h (by simp [hp])

theorem get_filter_of_mem {κ : Type} [Ord κ] [Std.TransOrd κ] [Std.LawfulEqOrd κ] {map : OrdMap κ α}
    {p : κ → Bool} {k : κ} (h : k ∈ map.keys.filter p) : (map.filter fun k _ => !p k)[k]? = none := by
  rw [get_filter]
  have hp := (mem_filter.mp h).2
  cases map[k]? <;> simp [hp]

theorem deleteBackup_mirrored (backupId : BackupId) : m.Mirrors (.deleteBackup backupId) := by
  simp only [Mirrors, applyInner, deleteBackup, ensures_rules]
  intro _
  have hfilter : (m.backupTabletProgress.filter fun key _ => decide (key.1 ≠ backupId)) =
      m.backupTabletProgress.filter fun key _ => !decide (key.1 = backupId) := by
    congr 1
    funext key _
    simp
  rw [hfilter]
  refine mirrored_of_covers _ rfl ?_ ?_
  · simp only [Reads, forall_mem_append, forall_mem_cons, forall_mem_map]
    refine ⟨⟨by simp [key, rowAt], fun key hkey => ?_⟩, reads_pruned (by simp [key, rowAt])⟩
    exact congrArg (RowWrite.backupProgress key.1 key.2) (get_filter_of_mem hkey).symm
  · intro k hk
    rw [map_append, map_cons, mem_append, mem_cons]
    cases k with
    | backup b =>
      obtain ⟨rfl, -⟩ := changed_erase fun h => hk (congrArg (RowWrite.backup b) h)
      exact .inl (.inl rfl)
    | backupProgress b tablet =>
      have hmem := mem_filter_keys fun h => hk (congrArg (RowWrite.backupProgress b tablet) h)
      exact .inl (.inr (mem_map.mpr ⟨_, mem_map_of_mem hmem, rfl⟩))
    | pitrBaseBackup b =>
      obtain ⟨rfl, hrow⟩ := changed_erase fun h => hk (congrArg (RowWrite.pitrBaseBackup b) h)
      exact .inr (mem_keys_pruned (.pitrBaseBackup backupId) hrow)
    | _ => exact absurd rfl hk

theorem dropTableIndex_mirrored (table : TableName) (index : String) :
    m.Mirrors (.dropTableIndex table index) := by
  simp only [Mirrors, applyInner, dropTableIndex]
  split
  · trivial
  · rename_i schema _
    refine mirrored_of_covers _ rfl (forall_mem_append.mpr ⟨reads_ifPresent fun _ => rfl, forall_mem_map.mpr ?_⟩) ?_
    · exact fun key hkey => congrArg (RowWrite.indexBackfill key.1 key.2) (get_filter_of_mem hkey).symm
    · intro k hk
      rw [map_append, mem_append]
      cases k with
      | schema t =>
        by_cases ht : table = t
        · subst ht
          exact .inl (mem_keys_ifPresent (by simp) fun _ => rfl)
        · exact absurd (by simp [rowAt, get_insert, ht]) hk
      | indexBackfill tablet name =>
        have hmem := mem_filter_keys fun h => hk (congrArg (RowWrite.indexBackfill tablet name) h)
        exact .inr (mem_map.mpr ⟨_, mem_map_of_mem hmem, rfl⟩)
      | _ => exact absurd rfl hk

/-- A change of a table's schema and of the policies of its tablets. -/
theorem setTablePolicies_mirrored (table : TableName) (policy : PlacementPolicy) (schema : TableSchema) :
    Mirrored m { m.setTablePolicies table policy with schemas := m.schemas.insert table schema }
      (some (policyRows
        { m.setTablePolicies table policy with schemas := m.schemas.insert table schema } table)) := by
  refine mirrored_of_covers _ rfl ?_ ?_
  · simp only [Reads, policyRows, forall_mem_append, forall_mem_flatMap]
    exact ⟨reads_ifPresent fun _ => rfl, fun _ _ => reads_ifPresent fun _ => rfl⟩
  · intro k hk
    rw [policyRows, map_append, mem_append]
    cases k with
    | schema t =>
      by_cases ht : table = t
      · subst ht
        exact .inl (mem_keys_ifPresent (by simp) fun _ => rfl)
      · exact absurd (by simp [rowAt, get_insert, ht]) hk
    | policy id =>
      have hget := foldl_set_get Prod.fst (fun _ _ _ => get_insert _ _ _ policy)
        (m.tabletsForTable table) id m.policies
      by_cases hmem : id ∈ (m.tabletsForTable table).map Prod.fst
      · rw [if_pos hmem] at hget
        obtain ⟨entry, hentry, rfl⟩ := mem_map.mp hmem
        right
        rw [map_flatMap]
        refine mem_flatMap.mpr ⟨entry, hentry, mem_keys_ifPresent ?_ fun _ => rfl⟩
        rw [setTablePolicies, hget]
        simp
      · rw [if_neg hmem] at hget
        exact absurd (congrArg (RowWrite.policy id) hget) hk
    | _ => exact absurd rfl hk

theorem dropTableTablets_mirrored (table : TableName) : m.Mirrors (.dropTableTablets table) := by
  simp only [Mirrors, applyInner, dropTableTablets, ensures_rules]
  intro _
  set dropped := (m.tabletsForTable table).map Prod.fst with hdropped
  have hpost := foldl_dropTablet_replicated dropped m
  generalize dropped.foldl dropTablet m = after at hpost ⊢
  obtain ⟨c, index, rev⟩ := after
  cases hpost
  refine mirrored_of_covers ((dropped.flatMap fun id => [.tablet id none, .policy id none]) ++
    ((m.indexBackfill.keys.filter fun key => dropped.contains key.1).map fun key =>
    .indexBackfill key.1 key.2 none) ++
    (m.splitPlacing.keys.filter dropped.contains).map fun tablet => .splitPlacing tablet none) rfl ?_ ?_
  · simp only [Reads, forall_mem_append, forall_mem_flatMap, forall_mem_cons, forall_mem_map]
    refine ⟨⟨fun id hid => ⟨?_, ?_, forall_mem_nil _⟩, fun key hkey => ?_⟩, fun tablet hmem => ?_⟩
    · exact congrArg (RowWrite.tablet id) ((foldl_erase_get dropped id _).trans (if_pos hid)).symm
    · exact congrArg (RowWrite.policy id) ((foldl_erase_get dropped id _).trans (if_pos hid)).symm
    · exact congrArg (RowWrite.indexBackfill key.1 key.2) (get_filter_of_mem hkey).symm
    · exact congrArg (RowWrite.splitPlacing tablet) (get_filter_of_mem hmem).symm
  · intro k hk
    rw [map_append, map_append, mem_append, mem_append]
    cases k with
    | tablet id =>
      by_cases hid : id ∈ dropped
      · exact .inl (.inl (mem_map.mpr ⟨_, mem_flatMap.mpr ⟨id, hid, mem_cons_self⟩, rfl⟩))
      · exact absurd (congrArg (RowWrite.tablet id) ((foldl_erase_get dropped id _).trans (if_neg hid))) hk
    | policy id =>
      by_cases hid : id ∈ dropped
      · refine .inl (.inl (mem_map.mpr ⟨.policy id none, mem_flatMap.mpr ⟨id, hid, ?_⟩, rfl⟩))
        exact mem_cons_of_mem _ mem_cons_self
      · exact absurd (congrArg (RowWrite.policy id) ((foldl_erase_get dropped id _).trans (if_neg hid))) hk
    | indexBackfill tablet name =>
      have hmem := mem_filter_keys fun h => hk (congrArg (RowWrite.indexBackfill tablet name) h)
      exact .inl (.inr (mem_map.mpr ⟨_, mem_map_of_mem hmem, rfl⟩))
    | splitPlacing tablet =>
      have hmem := mem_filter_keys fun h => hk (congrArg (RowWrite.splitPlacing tablet) h)
      exact .inr (mem_map.mpr ⟨_, mem_map_of_mem hmem, rfl⟩)
    | _ => exact absurd rfl hk

section Cutover

theorem mapM_eq_map {β : Type} {f : α → Option β} {g : α → β} (h : ∀ a ∈ as, f a = some (g a)) :
    as.mapM f = some (as.map g) := by
  induction as with
  | nil => rfl
  | cons a rest ih =>
    rw [mapM_cons, h a mem_cons_self, ih fun b hb => h b (mem_cons_of_mem a hb)]
    rfl

def setSome {α : Type} (map : OrdMap TabletId α) (id : TabletId) (row : Option α) : OrdMap TabletId α :=
  row.elim map fun r => map.insert id r

theorem get_setSome (map : OrdMap TabletId α) (id a : TabletId) (row : Option α) :
    (setSome map id row)[a]? = if id = a then row.or map[a]? else map[a]? := by
  cases row with
  | none => simp [setSome]
  | some r => simp [setSome, get_insert]

/-- Rows that are set under two ids at most change there only, and are then there. -/
theorem changed_of_setSome {map : OrdMap TabletId α} {left right id : TabletId} {a b : Option α}
    (h : (setSome (setSome map left a) right b)[id]? ≠ map[id]?) :
    (id = left ∨ id = right) ∧ (setSome (setSome map left a) right b)[id]? ≠ none := by
  rw [get_setSome, get_setSome] at h ⊢
  by_cases hright : right = id
  · subst hright
    refine ⟨.inr rfl, ?_⟩
    cases b <;> cases a <;> simp_all
  · by_cases hleft : left = id
    · subst hleft
      refine ⟨.inl rfl, ?_⟩
      cases a <;> simp_all
    · simp [hright, hleft] at h

def cutoverState (m : Metadata) (cut : Cutover) (left right : SplitChild) (leftRange rightRange : KeyRange) :
    Metadata :=
  let made := ((m.cutoverChild cut left leftRange).cutoverChild cut right rightRange).removeTablet cut.parent
  { made with policies := made.policies.erase cut.parent }

def Cutover.lineage (cut : Cutover) : SplitLineage := ⟨cut.parent, cut.parentsFinalEpoch, cut.cutoverWallMs⟩

def allChildRows (post : Metadata) (entry : TabletId × SplitLineage) : List RowWrite :=
  [.tablet entry.1 post.tablets[entry.1]?, .splitLineage entry.1 (some entry.2)] ++
    ifPresent (.policy entry.1) post.policies[entry.1]? ++
    ifPresent (.splitPlacing entry.1) post.splitPlacing[entry.1]?

theorem childRows_eq {entry : TabletId × SplitLineage} (h : post.tablets[entry.1]? ≠ none) :
    post.childRows entry.1 entry.2 = some (allChildRows post entry) := by
  obtain ⟨t, ht⟩ := Option.ne_none_iff_exists'.mp h
  simp [childRows, allChildRows, indexed, ht]

theorem reads_allChildRows {entry : TabletId × SplitLineage} (h : post.splitLineage[entry.1]? = some entry.2) :
    Reads post.toReplicated (allChildRows post entry) := by
  simp only [Reads, allChildRows, forall_mem_append, forall_mem_cons]
  refine ⟨⟨⟨rfl, ?_, forall_mem_nil _⟩, reads_ifPresent fun _ => rfl⟩, reads_ifPresent fun _ => rfl⟩
  exact congrArg (RowWrite.splitLineage entry.1) h.symm

/-- The children of a parent, as the mirror finds them. -/
def childrenOf (post : Metadata) (parent : TabletId) : List (TabletId × SplitLineage) :=
  post.splitLineage.toList.filter fun entry => entry.2.parent = parent

/-- No recorded split has the parent. -/
def FirstSplit (m : Metadata) (parent : TabletId) : Prop :=
  ∀ (child : TabletId) (lineage : SplitLineage), m.splitLineage[child]? = some lineage → lineage.parent ≠ parent

variable {cut : Cutover} {left right : SplitChild} {leftRange rightRange : KeyRange}
  (hpost : m.cutoverState cut left right leftRange rightRange = post)

include hpost

theorem cutoverState_splitLineage (id : TabletId) : post.splitLineage[id]? = if id = left.id ∨
    id = right.id then some cut.lineage else m.splitLineage[id]? := by
  subst hpost
  change ((m.splitLineage.insert left.id cut.lineage).insert right.id cut.lineage)[id]? = _
  rw [get_insert, get_insert]
  grind

theorem cutoverState_tablets (id : TabletId) : post.tablets[id]? = if id = cut.parent then none
    else if id = right.id then some (childTablet cut right rightRange)
    else if id = left.id then some (childTablet cut left leftRange) else m.tablets[id]? := by
  subst hpost
  change (((m.tablets.insert left.id (childTablet cut left leftRange)).insert right.id
    (childTablet cut right rightRange)).erase cut.parent)[id]? = _
  rw [get_erase, get_insert, get_insert]
  grind

theorem cutoverState_policies (id : TabletId) : post.policies[id]? =
    if id = cut.parent then none else (setSome (setSome m.policies left.id cut.policy) right.id
      cut.policy)[id]? := by
  subst hpost
  change ((setSome (setSome m.policies left.id cut.policy) right.id cut.policy).erase cut.parent)[id]? = _
  rw [get_erase]
  grind

variable (hfirst : m.FirstSplit cut.parent)

include hfirst

/-- If no older split names the parent, its children are the two of this cutover. -/
theorem mem_childrenOf_cutoverState (entry : TabletId × SplitLineage) :
    entry ∈ childrenOf post cut.parent ↔ (entry.1 = left.id ∨ entry.1 = right.id) ∧
    entry.2 = cut.lineage := by
  rw [childrenOf, mem_filter, Std.ExtTreeMap.mem_toList_iff_getElem?_eq_some, cutoverState_splitLineage hpost]
  constructor
  · rintro ⟨hrow, hof⟩
    split_ifs at hrow with hid
    · exact ⟨hid, (Option.some.inj hrow).symm⟩
    · exact absurd (of_decide_eq_true hof) (hfirst _ _ hrow)
  · rintro ⟨hid, hlineage⟩
    rw [if_pos hid, hlineage]
    exact ⟨rfl, by simp [Cutover.lineage]⟩

theorem cutoverState_mirrored (hleft : left.id ≠ cut.parent) (hright : right.id ≠ cut.parent) (epoch : Epoch)
    (wallMs : Nat) : Mirrored m post (deriveRows m post (.cutoverSplit cut.parent epoch wallMs)) := by
  have hchildren := mem_childrenOf_cutoverState hpost hfirst
  have htablets := cutoverState_tablets hpost
  have hpolicies := cutoverState_policies hpost
  have hlineage := cutoverState_splitLineage hpost
  obtain ⟨_, _, hplacing⟩ : ∃ a b, post.splitPlacing =
    setSome (setSome m.splitPlacing left.id a) right.id b := by
    rw [← hpost]
    exact ⟨_, _, rfl⟩
  refine mirrored_of_covers (.tablet cut.parent none :: .policy cut.parent none ::
    (childrenOf post cut.parent).flatMap (allChildRows post)) ?_ ?_ ?_
  · have hpresent : ∀ entry ∈ childrenOf post cut.parent, post.tablets[entry.1]? ≠ none := by
      intro entry hentry
      have hside := ((hchildren _).mp hentry).1
      rw [htablets]
      grind
    simp only [deriveRows]
    rw [← childrenOf, mapM_eq_map fun entry hentry => childRows_eq (hpresent entry hentry), flatMap_def]
    rfl
  · simp only [Reads, forall_mem_cons, forall_mem_flatMap]
    refine ⟨?_, ?_, fun entry hentry => reads_allChildRows ?_⟩
    · exact congrArg (RowWrite.tablet cut.parent) ((htablets _).trans (if_pos rfl)).symm
    · exact congrArg (RowWrite.policy cut.parent) ((hpolicies _).trans (if_pos rfl)).symm
    · obtain ⟨hside, heq⟩ := (hchildren _).mp hentry
      rw [hlineage, if_pos hside, heq]
  · intro k hk
    -- a key among the rows of a child is written
    have hin : ∀ id : TabletId, id = left.id ∨ id = right.id → k ∈ (allChildRows post (id, cut.lineage)).map
        key → k ∈ (RowWrite.tablet cut.parent none :: RowWrite.policy cut.parent none ::
          (childrenOf post cut.parent).flatMap (allChildRows post)).map key := by
      intro id hside hrow
      obtain ⟨w, hw, hkey⟩ := mem_map.mp hrow
      refine mem_map.mpr ⟨w, mem_cons_of_mem _ (mem_cons_of_mem _ ?_), hkey⟩
      exact mem_flatMap.mpr ⟨_, (hchildren _).mpr ⟨hside, rfl⟩, hw⟩
    cases k with
    | tablet id =>
      by_cases hid : id = cut.parent
      · exact hid ▸ mem_cons_self
      · refine hin id ?_ (by simp [allChildRows, key])
        by_contra hother
        exact hk (congrArg (RowWrite.tablet id) (by rw [htablets]; grind))
    | splitLineage id =>
      refine hin id ?_ (by simp [allChildRows, key])
      by_contra hother
      exact hk (congrArg (RowWrite.splitLineage id) (by rw [hlineage, if_neg hother]))
    | policy id =>
      by_cases hid : id = cut.parent
      · exact hid ▸ mem_cons_of_mem _ mem_cons_self
      · have hget := (hpolicies id).trans (if_neg hid)
        obtain ⟨hside, hrow⟩ := changed_of_setSome fun h => hk (congrArg (RowWrite.policy id) (hget.trans h))
        refine hin id hside ?_
        rw [allChildRows, map_append, map_append, mem_append, mem_append]
        exact .inl (.inr (mem_keys_ifPresent (hget ▸ hrow) fun _ => rfl))
    | splitPlacing id =>
      have hget : post.splitPlacing[id]? = _ :=
        congrArg (fun map : OrdMap TabletId SplitPlacing => map[id]?) hplacing
      obtain ⟨hside, hrow⟩ := changed_of_setSome fun h =>
        hk (congrArg (RowWrite.splitPlacing id) (hget.trans h))
      refine hin id hside ?_
      rw [allChildRows, map_append, mem_append]
      exact .inr (mem_keys_ifPresent (hget ▸ hrow) fun _ => rfl)
    | _ => exact absurd (by rw [← hpost]; rfl) hk

omit hpost hfirst in
/-- A cutover writes all rows of the children that it made, if no older split names the same parent. -/
theorem cutoverSplit_mirrored (parent : TabletId) (epoch : Epoch) (wallMs : Nat)
    (hfirst : m.tablets[parent]? ≠ none → m.FirstSplit parent) :
    m.Mirrors (.cutoverSplit parent epoch wallMs) := by
  simp only [Mirrors, applyInner, cutoverSplit, ensures_rules]
  intro source hsource _ _ intent _ ranges _ hfree
  simp only [Bool.or_eq_true, not_or] at hfree
  refine cutoverState_mirrored rfl (hfirst (by simp [hsource])) (fun heq => ?_) (fun heq => ?_) epoch wallMs
  · simpa [heq, hsource] using not_contains hfree.1
  · simpa [heq, hsource] using not_contains hfree.2

end Cutover

/-- The parents of recorded splits are no tablets any more. -/
def ParentsGone (m : Metadata) : Prop :=
  ∀ (child : TabletId) (lineage : SplitLineage), m.splitLineage[child]? = some lineage →
    m.tablets[lineage.parent]? = none

/-- **Every applied command is mirrored.** -/
theorem applyInner_mirrored (c : MetaCommand)
    (h : ∀ parent epoch wallMs, c = .cutoverSplit parent epoch wallMs → m.ParentsGone) : m.Mirrors c := by
  cases c with
  | noOp => trivial
  | cutoverSplit parent epoch wallMs =>
    refine cutoverSplit_mirrored _ _ _ fun hparent child lineage hrow heq => hparent ?_
    exact heq ▸ h parent epoch wallMs rfl child lineage hrow
  | dropTableTablets => exact dropTableTablets_mirrored _
  | dropTableIndex => exact dropTableIndex_mirrored _ _
  | convertTableToGlobal table =>
    simp only [Mirrors, applyInner, convertTableToGlobal, ensures_rules]
    intro schema _
    split
    · simp only [ensures_rules, and_self]
    · simp only [ensures_rules]
      exact fun _ => ensures_of_forall fun _ _ _ _ => setTablePolicies_mirrored table _ _
  | revertGlobalToRegional table =>
    simp only [Mirrors, applyInner, revertGlobalToRegional, ensures_rules]
    intro schema _
    split
    · trivial
    · simp only [ensures_rules]
      exact fun _ _ _ _ => setTablePolicies_mirrored table _ _
  | updateContinuousBackups => exact updateContinuousBackups_mirrored _ _ _
  | expireStreamShards keys remove =>
    simp only [Mirrors, applyInner, expireStreamShards]
    split
    · refine mirrored_of_covers _ rfl (forall_mem_map.mpr fun _ _ => rfl) fun k hk => ?_
      cases k with
      | streamShard tablet epoch =>
        have hmem := mem_of_expireRows ‹_› fun h => hk (congrArg (RowWrite.streamShard tablet epoch) h)
        exact mem_map.mpr ⟨_, mem_map_of_mem hmem, rfl⟩
      | _ => exact absurd rfl hk
    · trivial
  | expirePitrSegments keys remove =>
    simp only [Mirrors, applyInner, expirePitrSegments]
    split
    · refine mirrored_of_covers _ rfl (forall_mem_map.mpr fun _ _ => rfl) fun k hk => ?_
      cases k with
      | pitrSegment tablet epoch =>
        have hmem := mem_of_expireRows ‹_› fun h => hk (congrArg (RowWrite.pitrSegment tablet epoch) h)
        exact mem_map.mpr ⟨_, mem_map_of_mem hmem, rfl⟩
      | _ => exact absurd rfl hk
    · trivial
  | removeMember => exact removeMember_mirrored _
  | registerNode => exact registerNode_mirrored _ _ _ _
  | reportNodeVersion => exact reportNodeVersion_mirrored _ _ _
  | deleteBackup => exact deleteBackup_mirrored _
  | createTableIndex | setIndexStatus | setTableStream | setTableTtl | setTableThroughput | tagResource
  | untagResource | setGlobalPreferredLeader | convertTableToMrec | convertTableToLegacyGlobal
  | setLegacyGlobalSettings | addMrecReplica | removeMrecReplica | setMrecReplicaStatus | markMrecCopied
  | setMrecReplicaOverrides =>
    exact updateSchema_mirrored _ _ _
  -- one row, which the derivation reads back
  | upsertMember | casTabletReplicas | repairSettled | markSplitPlacingDone | retargetSplitPlacing
  | completeBackup | beginExport | completeExport | rotateCredential =>
    simp only [Mirrors, applyInner, upsertMember, casTabletReplicas, repairSettled, markSplitPlacingDone,
      retargetSplitPlacing, openPlacing, completeBackup, creatingBackup, beginExport, completeExport,
      rotateCredential, ensures_rules]
    intros
    exact mirrored_indexed (by simp [setTablet]) rfl
  | sealStreamShard | sealPitrSegment | putCredential =>
    simp only [Mirrors, applyInner, sealStreamShard, sealPitrSegment, putCredential]
    split <;>
      simp only [ensures_rules] <;> intros <;>
      exact mirrored_indexed (by simp) rfl
  | recordBackupTabletComplete =>
    simp only [Mirrors, applyInner, recordBackupTabletComplete, ensures_rules]
    refine ensures_of_forall fun row _ => ?_
    split
    · simp only [ensures_rules, and_self]
    · exact mirrored_indexed (by simp) rfl
  | failBackup | markBackupDeleted | failExport | failRestore | failImport =>
    simp only [Mirrors, applyInner, failBackup, markBackupDeleted, failExport, failRestore, failImport,
      ensures_rules]
    intros
    split <;> simp only [ensures_rules]
    all_goals
      intros
      exact mirrored_indexed (by simp) rfl
  -- one row that the command names
  | registerNodeAddrs | createTableSchema | replaceTableSchema | dropTableSchema | markIndexBackfilled
  | revokeCredential =>
    simp only [Mirrors, applyInner, registerNodeAddrs, createTableSchema, replaceTableSchema, updateSchema,
      dropTableSchema, markIndexBackfilled, revokeCredential, ensures_rules, and_true]
    intros
    exact mirrored_one _ rfl rfl
  | setNodeCapacity node capacity =>
    simp only [Mirrors, applyInner, setNodeCapacity, ensures_rules, and_true]
    refine fun _ _ => ⟨fun _ _ => ?_, fun _ _ => ?_⟩
    · exact mirrored_one (.nodeCapacity node none) (by simp [deriveRows]) rfl
    · exact mirrored_one (.nodeCapacity node (some capacity)) (by simp [deriveRows]) rfl
  | finalizeClusterVersion expected target =>
    simp only [Mirrors, applyInner, finalizeClusterVersion, ensures_rules]
    exact fun _ _ _ _ => ensures_of_forall fun _ => mirrored_one (.clusterVersion target) rfl rfl
  | setTabletPolicy tablet policy =>
    simp only [Mirrors, applyInner, setTabletPolicy, ensures_rules]
    refine fun _ => mirrored_one (.policy tablet policy) rfl ?_
    cases policy <;> rfl
  -- several rows
  | createTablet tablet table range replicas =>
    simp only [Mirrors, applyInner, createTablet, ensures_rules]
    intro _ _ _
    refine mirrored_two (.tablet tablet (some (.withTable tablet table range replicas)))
      (.nextTabletId (max m.nextTabletId (tablet + 1))) ?_ rfl (by simp [key])
    simp [deriveRows, indexed, insertTablet, reserve]
  | beginSplitInPlace parent epoch splitKey left right =>
    simp only [Mirrors, applyInner, beginSplitInPlace, ensures_rules]
    refine fun _ => ensures_of_forall fun _ => ensures_of_forall fun _ source _ _ _ _ _ => ?_
    refine mirrored_two (.tablet parent (some _)) (.nextTabletId
      (max (max m.nextTabletId (left.id + 1)) (right.id + 1))) ?_ rfl (by simp [key])
    simp [deriveRows, indexed, setTablet, reserve]
  | beginBackup backupId table wallMs name pitrBase =>
    simp only [Mirrors, applyInner, beginBackup, ensures_rules]
    intro _ schema _
    cases pitrBase with
    | false => exact mirrored_one (.backup backupId (some _)) (by simp [deriveRows, indexed]) rfl
    | true =>
      exact mirrored_two (.backup backupId (some _)) (.pitrBaseBackup backupId (some ()))
        (by simp [deriveRows, indexed]) rfl (by simp [key])
  | beginRestore restoreId backupId sourceTable targetTable tablet replicas gsiDefs pitr =>
    simp only [Mirrors, applyInner, beginRestore, ensures_rules]
    intro _ _ _ _
    refine mirrored_of_nodup [.tablet tablet (some (buildingTablet tablet targetTable replicas)),
      .nextTabletId (max m.nextTabletId (tablet + 1)), .restore restoreId (some _)] ?_ rfl (by simp [key])
    simp [deriveRows, indexed, insertTablet, reserve]
  | beginImport importId =>
    simp only [Mirrors, applyInner, beginImport, ensures_rules]
    intro _ _ _
    refine mirrored_of_nodup [.tablet _ (some _), .nextTabletId (max m.nextTabletId _),
      .imports importId (some _)] ?_ rfl (by simp [key])
    simp [deriveRows, indexed, insertTablet, reserve]
  | completeRestore id =>
    simp only [Mirrors, applyInner, completeRestore, ensures_rules]
    refine fun row _ _ => ensures_activate _ _ _ fun old _ _ => ?_
    exact mirrored_two (.tablet row.tablet (some _)) (.restore id
      (some _)) (by simp [deriveRows, indexed, setTablet]) rfl (by simp [key])
  | completeImport id =>
    simp only [Mirrors, applyInner, completeImport, ensures_rules]
    refine fun row _ _ => ensures_activate _ _ _ fun old _ _ => ?_
    exact mirrored_two (.tablet row.tablet (some _)) (.imports id
      (some _)) (by simp [deriveRows, indexed, setTablet]) rfl (by simp [key])

open RowWrite

variable {P : RowWrite → Prop} {pre}

/-- All rows of the list, if there is one, satisfy the predicate. -/
def AllRows (P : RowWrite → Prop) (derived : Option (List RowWrite)) :
    Prop := ∀ rows, derived = some rows → ∀ w ∈ rows, P w

theorem allRows_some : AllRows P (some rows) ↔ ∀ w ∈ rows, P w := by simp [AllRows]

theorem allRows_bind {x : Option α} {f : α → Option (List RowWrite)} :
    AllRows P (x.bind f) ↔ ∀ a, x = some a → AllRows P (f a) := by
  cases x <;> simp [AllRows]

theorem forall_mem_ifPresent : (∀ w ∈ ifPresent write row, P w) ↔ ∀ r, row = some r → P (write (some r)) := by
  simp [ifPresent]

theorem forall_mem_pruned : (∀ w ∈ pruned write row, P w) ↔ (row ≠ none → P (write none)) := by
  cases row <;> simp [pruned]

theorem forall_mem_ite {p : Prop} [Decidable p] :
    (∀ w ∈ if p then rows else rows', P w) ↔ (p → ∀ w ∈ rows, P w) ∧ (¬p → ∀ w ∈ rows', P w) := by
  split_ifs <;> simp [*]

theorem allRows_mapM {f : α → Option (List RowWrite)} (h : ∀ a, AllRows P (f a))
    {lists : List (List RowWrite)} (hlists : as.mapM f = some lists) : ∀ w ∈ lists.flatten, P w := by
  induction as generalizing lists with
  | nil =>
    cases hlists
    exact forall_mem_nil _
  | cons a rest ih =>
    simp only [mapM_cons, Option.bind_eq_bind, Option.bind_eq_some_iff, Option.pure_def,
      Option.some.injEq] at hlists
    obtain ⟨rows, hrows, others, hothers, rfl⟩ := hlists
    rw [flatten_cons]
    exact forall_mem_append.mpr ⟨h a rows hrows, ih hothers⟩

/-- Every row is as it was or among those that the command wrote. -/
theorem Mirrored.rowAt (h : Mirrored m post derived) (hrows : AllRows P derived) (k : SysKey) :
    post.toReplicated.rowAt k = m.toReplicated.rowAt k ∨ P (post.toReplicated.rowAt k) := by
  obtain ⟨rows, hderived, hpost, hreads⟩ := h
  have hrow := rowAt_foldl_install (c := m.toReplicated) hreads k
  rw [hpost] at hrow
  split_ifs at hrow with hk
  · obtain ⟨w, hw, rfl⟩ := mem_map.mp hk
    exact .inr (hreads w hw ▸ hrows rows hderived w hw)
  · exact .inl hrow

/-- A row that may be written by a command other than a cutover. -/
def Plain : RowWrite → Prop
  | .splitLineage .. | .pitrGeneration _ none => False
  | _ => True

/-- Only a cutover writes the lineage of a split, and no command removes a counter. -/
theorem deriveRows_plain (c : MetaCommand) (hc : ∀ parent epoch wallMs,
    c ≠ .cutoverSplit parent epoch wallMs) : AllRows Plain (deriveRows pre post c) := by
  cases c with
  | cutoverSplit parent epoch wallMs => exact absurd rfl (hc parent epoch wallMs)
  | _ =>
    simp only [deriveRows, policyRows, indexed, Option.bind_eq_bind, allRows_bind, allRows_some,
      forall_mem_cons, forall_mem_append, forall_mem_map, forall_mem_flatMap, forall_mem_ite,
      forall_mem_ifPresent, forall_mem_pruned]
    simp [Plain]

theorem Plain.storable (h : Plain w) : w.Storable := by
  unfold Storable
  split
  · exact h
  · trivial

theorem deriveRows_storable (c : MetaCommand) : AllRows Storable (deriveRows pre post c) := by
  by_cases hc : ∃ parent epoch wallMs, c = .cutoverSplit parent epoch wallMs
  · obtain ⟨parent, epoch, wallMs, rfl⟩ := hc
    intro rows hrows
    obtain ⟨lists, hlists, hrows⟩ := Option.bind_eq_some_iff.mp hrows
    cases hrows
    refine forall_mem_cons.mpr ⟨trivial, forall_mem_cons.mpr ⟨trivial, allRows_mapM (fun entry => ?_) hlists⟩⟩
    simp only [childRows, indexed, Option.bind_eq_bind, allRows_bind, allRows_some, forall_mem_cons,
      forall_mem_append, forall_mem_ifPresent]
    simp [Storable]
  · intro rows hrows w hw
    exact (deriveRows_plain c (fun parent epoch wallMs heq => hc ⟨parent, epoch, wallMs, heq⟩) rows hrows w
      hw).storable

end Metadata

end AnimusDb.Catalog
