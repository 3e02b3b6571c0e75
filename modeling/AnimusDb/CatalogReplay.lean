import AnimusDb.CatalogMirror

/-! Runs of commands and their mirror. In a run whose ids stay below the greatest, every command can be
mirrored, and what a command does depends on the replicated state alone: a state read back from storage,
whose index of tablets is empty, goes on as the one that was lost. -/

open OrderedMaps AnimusDb.Placement Fallible List Option
open AnimusDb.Tablet (KeyRange)

namespace AnimusDb.Catalog

variable {rows : List RowWrite}

namespace Metadata

variable {m m' : Metadata} {c : MetaCommand}

open RowWrite

/-- An id that no tablet has or will have again. -/
structure Retired (m : Metadata) (id : TabletId) : Prop where
  spent : m.Spent none id
  gone : m.tablets[id]? = none

theorem Retired.apply {id : TabletId} (h : m.Retired id) (c : MetaCommand) : (m.apply c).2.Retired id := by
  refine ⟨h.spent.step (m.apply_idStep c), ?_⟩
  by_contra hback
  obtain ⟨t, ht⟩ := ne_none_iff_exists'.mp hback
  have hgives : m.Gives c id := ⟨t, ht, fun old hold => by simp [h.gone] at hold⟩
  obtain ⟨parent, epoch, wallMs, -, hheld⟩ := h.spent.gives hgives
  cases hheld

/-- The parents of recorded splits are retired. -/
def ParentsRetired (m : Metadata) : Prop :=
  ∀ (child : TabletId) (lineage : SplitLineage), m.splitLineage[child]? = some lineage →
    m.Retired lineage.parent

theorem ParentsRetired.gone_prepared (h : m.ParentsRetired) (c : MetaCommand) :
    (m.prepared c).ParentsGone := by
  intro child lineage hchild
  rw [prepared_replicated] at hchild ⊢
  exact (h child lineage hchild).gone

/-- A cutover records lineages of its parent, which it removes. -/
theorem cutoverSplit_lineage (parent : TabletId) (epoch : Epoch) (wallMs : Nat) :
    Ensures (fun post => m.tablets[parent]? ≠ none ∧ post.tablets[parent]? = none ∧
      ∀ (child : TabletId) (lineage : SplitLineage), post.splitLineage[child]? = some lineage →
        lineage.parent = parent ∨ m.splitLineage[child]? = some lineage)
        (m.cutoverSplit parent epoch wallMs) := by
  simp only [cutoverSplit, ensures_rules]
  intro source hsource _ _ intent _ ranges _ _
  refine ⟨by simp [hsource], (cutoverState_tablets rfl parent).trans (if_pos rfl), fun child lineage hrow => ?_⟩
  replace hrow := (cutoverState_splitLineage rfl child).symm.trans hrow
  by_cases hside : child = intent.left.id ∨ child = intent.right.id
  · rw [if_pos hside] at hrow
    cases hrow
    exact .inl rfl
  · rw [if_neg hside] at hrow
    exact .inr hrow

theorem ParentsRetired.apply (h : m.ParentsRetired) (hledger : m.Ledger) (c : MetaCommand) :
    (m.apply c).2.ParentsRetired := by
  intro child lineage hrow
  by_cases hold : m.splitLineage[child]? = some lineage
  · exact (h child lineage hold).apply c
  rcases m.apply_cases c with ⟨post, hpost, happly⟩ | ⟨refusal, -, happly⟩
  · -- a new lineage is a cutover's, and its parent was a tablet until now
    rw [happly] at hrow
    by_cases hc : ∃ parent epoch wallMs, c = .cutoverSplit parent epoch wallMs
    · obtain ⟨parent, epoch, wallMs, rfl⟩ := hc
      obtain ⟨hparent, hgone, hlineage⟩ := (cutoverSplit_lineage parent epoch wallMs).of_eq hpost
      rcases hlineage child lineage hrow with rfl | hbefore
      · have hspent : m.Spent none lineage.parent :=
          ⟨hledger.given _ hparent, fun holder hres => absurd (hledger.reserved holder _ hres).2 hparent⟩
        exact ⟨hspent.step (m.apply_idStep _), by rw [happly]; exact hgone⟩
      · exact absurd hbefore hold
    · have hplain : AllRows Plain (deriveRows (m.prepared c) post c) :=
        deriveRows_plain c fun parent epoch wallMs heq => hc ⟨parent, epoch, wallMs, heq⟩
      have hmirrored := (applyInner_mirrored c fun _ _ _ _ => h.gone_prepared c).of_eq hpost
      rcases hmirrored.rowAt hplain (.splitLineage child) with heq | hnot
      · rw [prepared_replicated] at heq
        exact absurd ((RowWrite.splitLineage.inj heq).2 ▸ hrow) hold
      · exact absurd hnot id
  · rw [happly, prepared_replicated] at hrow
    exact absurd hrow hold

theorem parentsRetired_default : ParentsRetired {} := by
  intro child lineage hrow
  simp at hrow

/-- The states of runs whose ids stay in range. -/
structure Sound (m : Metadata) : Prop where
  ledger : m.Ledger
  retired : m.ParentsRetired
  indexed : m.Indexed

theorem sound_default : Sound {} := ⟨ledger_default, parentsRetired_default, indexed_default⟩

theorem Sound.apply (h : m.Sound) (hc : IdsInRange c) : (m.apply c).2.Sound :=
  ⟨h.ledger.step hc (m.apply_idStep c), h.retired.apply h.ledger c, h.indexed.apply c⟩

theorem Sound.run (commands : List MetaCommand) (h : m.Sound) (hids : ∀ c ∈ commands, IdsInRange c) :
    (m.run commands).Sound := by
  induction commands generalizing m with
  | nil => exact h
  | cons c rest ih =>
    exact ih (h.apply (hids c mem_cons_self)) fun d hd => hids d (mem_cons_of_mem c hd)

/-- The rows do not depend on the index or the revision. -/
theorem deriveRows_prepared (m post : Metadata) (c : MetaCommand) (rev : UInt64) :
    deriveRows m { post with placementRev := rev } c = deriveRows (m.prepared c) post c := by
  cases c <;> rfl

/-- **Every command of a sound state is mirrored.** -/
theorem Sound.applyAndDeriveMirror (h : m.Sound) (c : MetaCommand) :
    ∃ rows, m.applyAndDeriveMirror c = some ((m.apply c).1, (m.apply c).2, rows) ∧
      rows.foldl install m.toReplicated = (m.apply c).2.toReplicated ∧ Reads (m.apply c).2.toReplicated rows ∧
      ∀ w ∈ rows, w.Storable := by
  unfold Metadata.applyAndDeriveMirror
  rcases m.apply_cases c with ⟨post, hpost, happly⟩ | ⟨refusal, -, happly⟩
  · obtain ⟨rows, hrows, hinstall, hreads⟩ :=
      (applyInner_mirrored c fun _ _ _ _ => h.retired.gone_prepared c).of_eq hpost
    rw [prepared_replicated] at hinstall
    refine ⟨rows, ?_, ?_, ?_, deriveRows_storable c rows hrows⟩
    · rw [happly]
      simp [deriveRows_prepared, hrows]
    · rw [happly]
      exact hinstall
    · rw [happly]
      exact hreads
  · have hnot : refusal.outcome ≠ .applied := by cases refusal <;> simp [Refusal.outcome]
    refine ⟨[], ?_, ?_, fun w hw => absurd hw not_mem_nil, fun w hw => absurd hw not_mem_nil⟩
    · rw [happly]
      simp [hnot]
    · rw [happly]
      exact (prepared_replicated m c).symm

/-- Two states that replicate alike. -/
structure Twin (m m' : Metadata) : Prop where
  same : m.toReplicated = m'.toReplicated
  indexed : m.Indexed
  indexed' : m'.Indexed

theorem Twin.tabletsForTable (h : Twin m m') : m.tabletsForTable = m'.tabletsForTable := by
  funext table
  rw [h.indexed.tabletsForTable, h.indexed'.tabletsForTable, h.same]

theorem Twin.hasTableTablet (h : Twin m m') : m.hasTableTablet = m'.hasTableTablet := by
  funext table
  rw [Bool.eq_iff_iff, h.indexed.hasTableTablet, h.indexed'.hasTableTablet, h.same]

section

variable (h : m.toReplicated = m'.toReplicated)

include h

theorem updateSchema_agree (missing : String) (table : TableName) (f : TableSchema → Arm TableSchema) :
    Agree toReplicated (m.updateSchema missing table f) (m'.updateSchema missing table f) := by
  simp [updateSchema, h]

theorem activate_agree (gone notBuilding : String) (tablet : TabletId) :
    Agree toReplicated (m.activate gone notBuilding tablet) (m'.activate gone notBuilding tablet) := by
  simp [activate, setTablet, h]

theorem checkVersions_congr : m.checkVersions = m'.checkVersions := by
  funext target nodes
  induction nodes with
  | nil => rfl
  | cons node rest ih => simp only [checkVersions, ih, h]

theorem cutoverChild_congr (cut : Cutover) (child : SplitChild) (range : KeyRange) :
    (m.cutoverChild cut child range).toReplicated = (m'.cutoverChild cut child range).toReplicated := by
  simp only [cutoverChild, insertTablet, h]

theorem dropTablet_congr (id : TabletId) :
    (m.dropTablet id).toReplicated = (m'.dropTablet id).toReplicated := by
  simp only [dropTablet, removeTablet, h]

theorem cutoverSplit_agree (parent : TabletId) (epoch : Epoch) (wallMs : Nat) :
    Agree toReplicated (m.cutoverSplit parent epoch wallMs) (m'.cutoverSplit parent epoch wallMs) := by
  have hcapacity : m.effectiveCapacities = m'.effectiveCapacities := by
    unfold effectiveCapacities capacityGateOpen versioningActive clusterVersionOrFirst
    rw [h]
  have hepoch : m.lastStreamEpoch parent = m'.lastStreamEpoch parent := by simp only [lastStreamEpoch, h]
  simp only [cutoverSplit, hcapacity, hepoch, h]
  simp only [agree_bind, agree_ite, agree_refl, implies_true, true_and]
  refine ensures_of_forall fun source _ _ => ensures_of_forall fun intent => ensures_of_forall fun ranges _ =>
    agree_ok.mpr ?_
  exact dropTablet_congr (cutoverChild_congr (cutoverChild_congr h _ _ _) _ _ _) parent

theorem liveSplitDescendantsWithin_congr : m.liveSplitDescendantsWithin = m'.liveSplitDescendantsWithin := by
  funext steps ancestor
  induction steps generalizing ancestor with
  | zero => simp only [liveSplitDescendantsWithin, h]
  | succ steps ih => simp only [liveSplitDescendantsWithin, h, ih]

theorem tracesToPinnedWithin_congr : m.tracesToPinnedWithin = m'.tracesToPinnedWithin := by
  funext pinned steps cur
  induction steps generalizing cur with
  | zero => rfl
  | succ steps ih => simp only [tracesToPinnedWithin, h, ih]

end

theorem fillNodeCapacity_congr (h : m.toReplicated = m'.toReplicated) (node : NodeId)
    (capacity : Option Capacity) : (m.fillNodeCapacity node capacity).map toReplicated =
      (m'.fillNodeCapacity node capacity).map toReplicated := by
  simp only [fillNodeCapacity, h]
  cases capacity with
  | none => rfl
  | some c =>
    dsimp only
    split_ifs <;> rfl

theorem fillEmptyLabels_congr (h : m.toReplicated = m'.toReplicated) (node : NodeId) (labels : Labels) :
    (m.fillEmptyLabels node labels).map toReplicated = (m'.fillEmptyLabels node labels).map toReplicated := by
  simp only [fillEmptyLabels, h]
  cases m'.members[node]? with
  | none => rfl
  | some member =>
    dsimp only
    split_ifs <;> rfl

/-- A step that may do nothing leaves states that replicate alike. -/
theorem getD_congr {x y : Option Metadata} (hxy : x.map toReplicated = y.map toReplicated)
    (h : m.toReplicated = m'.toReplicated) : (x.getD m).toReplicated = (y.getD m').toReplicated := by
  cases x <;> cases y <;> simp_all

theorem isSome_congr {x y : Option Metadata} (hxy : x.map toReplicated = y.map toReplicated) :
    x.isSome = y.isSome := by
  simpa using congrArg isSome hxy

theorem enrol_congr (h : m.toReplicated = m'.toReplicated) (node : NodeId) (labels : Labels) :
    (m.enrol node labels).toReplicated = (m'.enrol node labels).toReplicated := by
  simp only [enrol, h]

theorem registerNode_agree (h : m.toReplicated = m'.toReplicated) (node : NodeId) (addrs : NodeAddrs)
    (labels : Labels) (capacity : Option Capacity) :
    Agree toReplicated (m.registerNode node addrs labels capacity)
      (m'.registerNode node addrs labels capacity) := by
  have hfill : ∀ {n n' : Metadata}, n.toReplicated = n'.toReplicated →
      ((n.fillNodeCapacity node capacity).getD n).toReplicated =
      ((n'.fillNodeCapacity node capacity).getD n').toReplicated :=
    fun hn => getD_congr (fillNodeCapacity_congr hn node capacity) hn
  simp only [registerNode, h]
  cases m'.nodeAddrs[node]? with
  | some existing =>
    simp only [agree_ite, agree_refl, agree_ok, hfill (enrol_congr h node labels), implies_true, true_and]
    intro _ _ _
    have hlabels := fillEmptyLabels_congr h node labels
    have hsized := fillNodeCapacity_congr (getD_congr hlabels h) node capacity
    rw [isSome_congr hlabels, isSome_congr hsized]
    simp [getD_congr hsized (getD_congr hlabels h)]
  | none =>
    refine agree_ite.mpr ⟨fun _ => agree_ok.mpr rfl, fun _ => agree_ok.mpr (hfill ?_)⟩
    split_ifs
    · exact enrol_congr rfl node labels
    · refine getD_congr ?_ rfl
      apply fillEmptyLabels_congr
      rfl

theorem applyInner_agree (h : Twin m m') (c : MetaCommand) :
    Agree toReplicated (m.applyInner c) (m'.applyInner c) := by
  cases c with
  | noOp => exact agree_refl _
  | cutoverSplit parent epoch wallMs => exact cutoverSplit_agree h.same parent epoch wallMs
  | dropTableTablets table =>
    simp only [applyInner, dropTableTablets, h.tabletsForTable]
    simp [foldl_dropTablet_replicated, h.same]
  | registerNode => exact registerNode_agree h.same _ _ _ _
  -- the other arms read the replicated fields and the index only through what twins agree on
  | beginSplitInPlace =>
    simp only [applyInner, beginSplitInPlace, checkChildId, nextFreeTabletId, tableStream, setTablet, reserve,
      h.same, agree_ite, agree_refl, implies_true, true_and]
    refine fun _ => agree_bind.mpr (ensures_of_forall fun _ => agree_bind.mpr (ensures_of_forall fun _ => ?_))
    simp
  | sealStreamShard | sealPitrSegment | expireStreamShards | expirePitrSegments | removeMember | putCredential
  | dropTableIndex =>
    simp only [applyInner, sealStreamShard, sealPitrSegment, expireStreamShards, expirePitrSegments,
      removeMember, putCredential, dropTableIndex, forgetNode, tabletsReferencing, tableStream,
      h.tabletsForTable, h.same]
    split <;> simp
  | convertTableToGlobal | revertGlobalToRegional | failBackup | failExport | failRestore | failImport =>
    simp only [applyInner, convertTableToGlobal, revertGlobalToRegional, failBackup, failExport, failRestore,
      failImport, h.tabletsForTable, h.same, agree_bind]
    refine ensures_of_forall fun row => ?_
    split <;> simp [setTablePolicies, h.tabletsForTable, h.same]
  | recordBackupTabletComplete | markBackupDeleted =>
    simp only [applyInner, recordBackupTabletComplete, markBackupDeleted, backupReferencedByALiveRestore,
      creatingBackup, tracesToPinned, tracesToPinnedWithin_congr h.same, h.same, agree_bind]
    refine ensures_of_forall fun row => agree_ite.mpr ⟨by simp, fun _ => ?_⟩
    split <;> simp
  | completeRestore | completeImport =>
    simp only [applyInner, completeRestore, completeImport, h.same, agree_bind]
    refine ensures_of_forall fun row =>
      agree_ite.mpr ⟨by simp, fun _ => (activate_agree h.same _ _ _).bind ?_⟩
    intro a b hab
    simp [hab]
  | upsertMember | createTablet | casTabletReplicas | repairSettled | markSplitPlacingDone
  | retargetSplitPlacing | setTabletPolicy =>
    simp [applyInner, upsertMember, createTablet, casTabletReplicas, repairSettled, markSplitPlacingDone,
      retargetSplitPlacing, setTabletPolicy, setTablet, insertTablet, reserve, openPlacing,
      nextFreeTabletId, h.hasTableTablet, h.same]
  | createTableSchema | dropTableSchema | markIndexBackfilled | updateContinuousBackups =>
    simp [applyInner, createTableSchema, dropTableSchema, markIndexBackfilled, updateContinuousBackups,
      h.same]
  | registerNodeAddrs | setNodeCapacity | reportNodeVersion | finalizeClusterVersion =>
    simp [applyInner, registerNodeAddrs, setNodeCapacity, reportNodeVersion, finalizeClusterVersion,
      clusterVersionOrFirst, versioningActive, requiredVersionSet, checkVersions_congr h.same, h.same]
  | beginBackup | completeBackup | deleteBackup | beginExport | completeExport | beginRestore | beginImport =>
    simp [applyInner, beginBackup, completeBackup, deleteBackup, beginExport, completeExport, beginRestore,
      beginImport, creatingBackup, hasTableSchema, nextFreeTabletId, insertTablet, reserve,
      h.tabletsForTable, pinnedTabletCaptureComplete, backupTotalBytes, backupManifestTabletProgress,
      liveSplitDescendants, liveSplitDescendantsWithin_congr h.same, h.same]
  | rotateCredential | revokeCredential => simp [applyInner, rotateCredential, revokeCredential, h.same]
  | _ => exact updateSchema_agree h.same _ _ _

/-- **A command does the same to states that replicate alike.** -/
theorem Twin.apply (h : Twin m m') (c : MetaCommand) :
    (m.apply c).1 = (m'.apply c).1 ∧ Twin (m.apply c).2 (m'.apply c).2 := by
  have hprepared : Twin (m.prepared c) (m'.prepared c) :=
    ⟨by rw [prepared_replicated, prepared_replicated, h.same], h.indexed.prepared c, h.indexed'.prepared c⟩
  have hagree := applyInner_agree hprepared c
  suffices hsame : (m.apply c).1 = (m'.apply c).1 ∧ (m.apply c).2.toReplicated =
    (m'.apply c).2.toReplicated from ⟨hsame.1, hsame.2, h.indexed.apply c, h.indexed'.apply c⟩
  rcases m.apply_cases c with ⟨post, hpost, happly⟩ | ⟨refusal, hpost, happly⟩ <;>
    rcases m'.apply_cases c with ⟨post', hpost', happly'⟩ | ⟨refusal', hpost', happly'⟩ <;>
    rw [hpost, hpost'] at hagree
  · rw [happly, happly']
    exact ⟨rfl, Except.ok.inj hagree⟩
  · cases hagree
  · cases hagree
  · cases hagree
    rw [happly, happly']
    exact ⟨rfl, hprepared.same⟩

theorem deriveRows_congr {post post' : Metadata} (h : Twin m m') (hpost : Twin post post') (c : MetaCommand) :
    deriveRows m post c = deriveRows m' post' c := by
  have htables := h.tabletsForTable
  have htables' := hpost.tabletsForTable
  have hversions : m.versioningActive = m'.versioningActive := by
    unfold versioningActive
    rw [h.same]
  cases c <;> simp only [deriveRows, childRows, policyRows, h.same, hpost.same, htables, htables', hversions]

theorem Twin.applyAndDeriveMirror (h : Twin m m') {outcome : ApplyOutcome} {post : Metadata}
    (hderive : m'.applyAndDeriveMirror c = some (outcome, post, rows)) :
    m.applyAndDeriveMirror c = some (outcome, (m.apply c).2, rows) := by
  obtain ⟨houtcome, hpost⟩ := h.apply c
  simp only [Metadata.applyAndDeriveMirror, houtcome, deriveRows_congr h hpost c] at hderive ⊢
  split_ifs at hderive ⊢ with hnot
  · cases hderive
    rfl
  · obtain ⟨_, hrows, heq⟩ := map_eq_some_iff.mp hderive
    cases heq
    rw [hrows]
    rfl

/-- The state that storage gives back, without an index. -/
def ofReplicated (r : Replicated) : Metadata := { toReplicated := r }

theorem twin_ofReplicated (h : m.Indexed) : Twin (ofReplicated m.toReplicated) m := ⟨rfl, .inr ⟨rfl, rfl⟩, h⟩

end Metadata

end AnimusDb.Catalog
