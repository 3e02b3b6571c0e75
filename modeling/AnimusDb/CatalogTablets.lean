import AnimusDb.CatalogIndex
import AnimusDb.RustText

/-! What an applied command does to the tablet map and to the id allocator, once for all commands. -/

open OrderedMaps AnimusDb.Placement Fallible List Option
open AnimusDb.Tablet (KeyRange tokenBytes)

namespace AnimusDb.Catalog

variable {α : Type} {Q : α → Prop}

@[simp] theorem ensures_reject (reason : String) : Ensures Q (reject reason : Arm α) ↔ True := Iff.rfl

@[simp] theorem ensures_unchanged : Ensures Q (unchanged : Arm α) ↔ True := Iff.rfl

@[simp] theorem ensures_orReject (reason : String) (o : Option α) :
    Ensures Q (orReject reason o) ↔ ∀ a, o = some a → Q a := by
  cases o <;> simp [orReject]

/-- The rules that read a postcondition off the text of an arm. -/
theorem ensures_rules : (∀ (α : Type) (Q : α → Prop), (∀ a, Ensures Q (.ok a : Arm α) ↔ Q a) ∧
      (∀ reason, Ensures Q (reject reason : Arm α) ↔ True) ∧ (Ensures Q (unchanged : Arm α) ↔ True) ∧
      (∀ reason o, Ensures Q (orReject reason o : Arm α) ↔ ∀ a, o = some a → Q a) ∧
      (∀ (β : Type) (x : Arm β) (f : β → Arm α), Ensures Q (x >>= f) ↔ Ensures (fun b => Ensures Q (f b)) x) ∧
      ∀ (p : Prop) [Decidable p] (x y : Arm α), Ensures Q (if p then x else y) ↔ (p → Ensures Q x) ∧
        (¬ p → Ensures Q y)) ∧ (∀ p : Prop, (p → True) = True) ∧ ∀ p : Prop, (True ∧ p) = p := by
  simp

/-- The table for which a command starts to build a tablet outside of service, and that tablet. -/
def MetaCommand.target : MetaCommand → Option (TableName × TabletId)
  | .beginRestore _ _ _ targetTable tablet .. => some (targetTable, tablet)
  | .beginImport _ targetTable _ _ _ _ _ _ _ _ _ _ tablet .. => some (targetTable, tablet)
  | _ => none

namespace Metadata

variable {m : Metadata}

/-- Two states with the same tablet map, index and allocator. -/
structure SameTablets (m m' : Metadata) : Prop where
  tablets : m'.tablets = m.tablets
  nextTabletId : m'.nextTabletId = m.nextTabletId
  tabletIndex : m'.tabletIndex = m.tabletIndex

theorem SameTablets.refl (m : Metadata) : SameTablets m m := ⟨rfl, rfl, rfl⟩

theorem SameTablets.trans {m₁ m₂ m₃ : Metadata} (h : SameTablets m₁ m₂) (h' : SameTablets m₂ m₃) :
    SameTablets m₁ m₃ :=
  ⟨h'.tablets.trans h.tablets, h'.nextTabletId.trans h.nextTabletId, h'.tabletIndex.trans h.tabletIndex⟩

/-- The ways in which an applied command touches the tablet map. -/
inductive TabletStep (m : Metadata) : MetaCommand → Metadata → Prop where
  | same {c m'} : SameTablets m m' → TabletStep m c m'
  | create {m'} (tablet table range replicas) :
      m.tablets[tablet]? = none → (∀ name ∈ table, ¬ m.hasTableTablet name) → m.nextFreeTabletId ≤ tablet →
      SameTablets ((m.insertTablet tablet (.withTable tablet table range replicas)).reserve tablet) m' →
      TabletStep m (.createTablet tablet table range replicas) m'
  | build {c m'} (tablet table replicas) : c.target = some (table, tablet) →
      m.tablets[tablet]? = none → m.nextFreeTabletId ≤ tablet →
      SameTablets ((m.insertTablet tablet (buildingTablet tablet table replicas)).reserve tablet) m' →
      TabletStep m c m'
  | update {c m'} (id : TabletId) (old t : Tablet) : m.tablets[id]? = some old →
      t.table = old.table → t.range = old.range → t.state = old.state → t.inplaceSplit = old.inplaceSplit →
      SameTablets (m.setTablet id t) m' → TabletStep m c m'
  | activate {c m'} (id : TabletId) (old : Tablet) : m.tablets[id]? = some old → old.state = .building →
      SameTablets (m.setTablet id { old with state := .active, epoch := old.epoch + 1 }) m' → TabletStep m c m'
  | split {m'} (parent : TabletId) (epoch : Epoch) (source : Tablet) (intent : InPlaceSplitIntent) :
      m.tablets[parent]? = some source → source.state = .active →
      (source.range.splitAt intent.splitKey).isSome → intent.left.id ≠ intent.right.id →
      (∀ id ∈ [intent.left.id, intent.right.id], m.tablets[id]? = none ∧ m.nextFreeTabletId ≤ id) →
      SameTablets (((m.reserve intent.left.id).reserve intent.right.id).setTablet parent
        { source with state := .splitting, inplaceSplit := some intent, epoch := source.epoch + 1 }) m' →
      TabletStep m (.beginSplitInPlace parent epoch intent.splitKey intent.left intent.right) m'
  | cutover {m'} (parent : TabletId) (epoch : Epoch) (wallMs : Nat) (source : Tablet)
      (intent : InPlaceSplitIntent) (left right : KeyRange) (cut : Cutover) :
      m.tablets[parent]? = some source → source.state = .splitting → source.inplaceSplit = some intent →
      source.range.splitAt intent.splitKey = some (left, right) → cut.table = source.table →
      m.tablets[intent.left.id]? = none → m.tablets[intent.right.id]? = none →
      SameTablets (((m.cutoverChild cut intent.left left).cutoverChild cut intent.right right).removeTablet
        parent) m' →
      TabletStep m (.cutoverSplit parent epoch wallMs) m'
  | drop {c m'} (table : TableName) :
      SameTablets (((m.tabletsForTable table).map Prod.fst).foldl dropTablet m) m' → TabletStep m c m'

variable {Q : Metadata → Prop}

theorem ensures_updateSchema (missing : String) (table : TableName)
    (f : TableSchema → Arm TableSchema) (hQ : ∀ schemas, Q { m with schemas }) :
    Ensures Q (m.updateSchema missing table f) := by
  simp only [updateSchema, ensures_rules]
  intro schema _
  exact ensures_of_forall fun _ => hQ _

theorem not_contains {id : TabletId} (h : ¬ m.tablets.contains id = true) : m.tablets[id]? = none := by
  rwa [contains_eq, not_isSome_iff_eq_none] at h

theorem ensures_checkChildId (id : TabletId) :
    Ensures (fun _ => m.tablets[id]? = none ∧ m.nextFreeTabletId ≤ id) (m.checkChildId id) := by
  simp only [checkChildId, ensures_rules]
  intro hnew hfloor
  exact ⟨not_contains hnew, UInt64.not_lt.mp hfloor⟩

theorem ensures_activate (gone notBuilding : String) (tablet : TabletId)
    (hQ : ∀ old, m.tablets[tablet]? = some old → old.state = .building →
      Q (m.setTablet tablet { old with state := .active, epoch := old.epoch + 1 })) :
    Ensures Q (m.activate gone notBuilding tablet) := by
  simp only [activate, ensures_rules]
  intro t ht hstate
  exact hQ t ht (not_not.mp hstate)

/-- What registering a node keeps: the address book entry comes first, then the rows of the member and of
its capacity. -/
theorem ensures_registerNode {node : NodeId} {addrs : NodeAddrs} (labels : Labels) (capacity : Option Capacity)
    (hknown : m.nodeAddrs[node]? ≠ none → Q m) (hclaim : Q { m with nodeAddrs := m.nodeAddrs.insert node addrs })
    (hmember : ∀ m₀ row, Q m₀ → Q { m₀ with members := m₀.members.insert node row })
    (hcapacity : ∀ m₀ row, Q m₀ → Q { m₀ with nodeCapacity := m₀.nodeCapacity.insert node row }) :
    Ensures Q (m.registerNode node addrs labels capacity) := by
  have hfill : ∀ m₀ : Metadata, Q m₀ → Q ((m₀.fillNodeCapacity node capacity).getD m₀) := by
    intro m₀ h
    unfold fillNodeCapacity
    split
    · split_ifs
      · exact hcapacity m₀ _ h
      · exact h
    · exact h
  have hlabel : ∀ m₀ : Metadata, Q m₀ → Q ((m₀.fillEmptyLabels node labels).getD m₀) := by
    intro m₀ h
    unfold fillEmptyLabels
    split
    · split_ifs
      · exact hmember m₀ _ h
      · exact h
    · exact h
  unfold registerNode
  dsimp only
  split
  · rename_i existing hexisting
    have hm : Q m := hknown (by simp [hexisting])
    simp only [ensures_rules]
    exact fun _ _ => ⟨fun _ => hfill _ (hmember m _ hm), fun _ => ⟨fun _ => hfill _ (hlabel _ hm), trivial⟩⟩
  · simp only [ensures_rules]
    refine ⟨fun _ => hclaim, fun _ => hfill _ ?_⟩
    split_ifs
    · exact hmember _ _ hclaim
    · exact hlabel _ hclaim

/-- **Every applied command touches the tablet map in one of these ways.** -/
theorem applyInner_tabletStep (c : MetaCommand) :
    Ensures (fun post => TabletStep m c { post with placementRev := post.placementRev + 1 }) (m.applyInner c) := by
  cases c with
  | createTablet tablet table range replicas =>
    simp only [applyInner, createTablet, ensures_rules]
    intro hnew htable hfloor
    refine .create tablet table range replicas (not_contains hnew) ?_ (UInt64.not_lt.mp hfloor) ⟨rfl, rfl, rfl⟩
    rintro name rfl hhas
    exact htable hhas
  | casTabletReplicas tablet | repairSettled tablet =>
    simp only [applyInner, casTabletReplicas, repairSettled, ensures_rules]
    intro t ht
    intros
    exact .update tablet t _ ht (by rfl) (by rfl) (by rfl) (by rfl) ⟨rfl, rfl, rfl⟩
  | beginSplitInPlace parent epoch splitKey left right =>
    simp only [applyInner, beginSplitInPlace, ensures_rules]
    intro hdistinct
    refine (ensures_checkChildId left.id).mono fun _ hleft => ?_
    refine (ensures_checkChildId right.id).mono fun _ hright => ?_
    intro source hsource _ hactive _ hinside
    refine .split parent epoch source ⟨splitKey, left, right⟩ hsource (not_not.mp hactive) ?_ hdistinct ?_
      ⟨rfl, rfl, rfl⟩
    · exact isSome_iff_ne_none.mpr (by simpa using hinside)
    · simp only [mem_cons, not_mem_nil, or_false, forall_eq_or_imp, forall_eq]
      exact ⟨hleft, hright⟩
  | cutoverSplit parent epoch wallMs =>
    simp only [applyInner, cutoverSplit, ensures_rules]
    intro source hsource _ hsplitting intent hintent ranges hranges hfree
    simp only [Bool.or_eq_true, not_or] at hfree
    exact .cutover parent epoch wallMs source intent ranges.1 ranges.2 _ hsource (not_not.mp hsplitting)
      hintent hranges rfl (not_contains hfree.1) (not_contains hfree.2) ⟨rfl, rfl, rfl⟩
  | dropTableTablets table =>
    simp only [applyInner, dropTableTablets, ensures_rules]
    exact fun _ => .drop table ⟨rfl, rfl, rfl⟩
  | completeRestore | completeImport =>
    simp only [applyInner, completeRestore, completeImport, ensures_rules]
    intro row _ _
    exact ensures_activate _ _ _ fun old hold hstate => .activate row.tablet old hold hstate ⟨rfl, rfl, rfl⟩
  | beginRestore =>
    simp only [applyInner, beginRestore, ensures_rules]
    intro _ hnew _ hfloor
    exact .build _ _ _ rfl (not_contains hnew) (UInt64.not_lt.mp hfloor) ⟨rfl, rfl, rfl⟩
  | beginImport =>
    simp only [applyInner, beginImport, ensures_rules]
    intro _ hnew hfloor
    exact .build _ _ _ rfl (not_contains hnew) (UInt64.not_lt.mp hfloor) ⟨rfl, rfl, rfl⟩
  | registerNode node addrs labels capacity =>
    refine Ensures.mono (Q := SameTablets m) ?_ fun _ h => .same (h.trans ⟨rfl, rfl, rfl⟩)
    exact ensures_registerNode labels capacity (fun _ => .refl m) ⟨rfl, rfl, rfl⟩
      (fun _ _ h => h.trans ⟨rfl, rfl, rfl⟩) fun _ _ h => h.trans ⟨rfl, rfl, rfl⟩
  | _ =>
    -- the other arms write fields outside the tablet map: each result on their paths has the map as it was
    refine Ensures.mono (Q := SameTablets m) ?_ fun _ h => .same (h.trans ⟨rfl, rfl, rfl⟩)
    first
    | exact ensures_updateSchema _ _ _ fun _ => ⟨rfl, rfl, rfl⟩
    | simp only [applyInner, upsertMember, markSplitPlacingDone, retargetSplitPlacing, setTabletPolicy,
        createTableSchema, dropTableSchema, dropTableIndex, markIndexBackfilled, convertTableToGlobal,
        revertGlobalToRegional, updateContinuousBackups, sealStreamShard, expireStreamShards, sealPitrSegment,
        expirePitrSegments, registerNodeAddrs, removeMember, setNodeCapacity, reportNodeVersion,
        finalizeClusterVersion, beginBackup, recordBackupTabletComplete, completeBackup, failBackup,
        deleteBackup, markBackupDeleted, beginExport, completeExport, failExport, failRestore, failImport,
        putCredential, rotateCredential, revokeCredential, ensures_rules]
    repeat' first
      | trivial
      | intro _
      | apply And.intro
      | split
      | exact ⟨rfl, rfl, rfl⟩
      | simp only [ensures_bind]
      | apply ensures_of_forall

@[simp] theorem prepared_replicated (m : Metadata) (c : MetaCommand) :
    (m.prepared c).toReplicated = m.toReplicated := by
  cases c with
  | createTablet =>
    unfold prepared ensureTabletIndex
    dsimp only
    split <;> rfl
  | _ => rfl

/-- What `apply` does: the arm's result with a new revision, or nothing. -/
theorem apply_cases (m : Metadata) (c : MetaCommand) :
    (∃ post, (m.prepared c).applyInner c = .ok post ∧
    m.apply c = (.applied, { post with placementRev := post.placementRev + 1 })) ∨
      ∃ refusal, (m.prepared c).applyInner c = .error refusal ∧
      m.apply c = (refusal.outcome, m.prepared c) := by
  unfold apply
  cases h : (m.prepared c).applyInner c with
  | ok post => exact .inl ⟨post, rfl, by simp [h]⟩
  | error refusal => exact .inr ⟨refusal, rfl, by simp [h]⟩

theorem Indexed.prepared (h : m.Indexed) (c : MetaCommand) : (m.prepared c).Indexed := by
  unfold Metadata.prepared
  split
  · exact h.ensureTabletIndex
  · exact h

/-- A command, applied or refused, touches the tablet map in one of these ways. -/
theorem apply_tabletStep (m : Metadata) (c : MetaCommand) : TabletStep (m.prepared c) c (m.apply c).2 := by
  rcases m.apply_cases c with ⟨post, hpost, happly⟩ | ⟨refusal, -, happly⟩
  · rw [happly]
    exact (applyInner_tabletStep c).of_eq hpost
  · rw [happly]
    exact .same (.refl _)

variable (id : TabletId)

@[simp] theorem insertTablet_tablets (t : Tablet) :
    (m.insertTablet id t).tablets = m.tablets.insert id t := rfl

@[simp] theorem removeTablet_tablets : (m.removeTablet id).tablets = m.tablets.erase id := rfl

@[simp] theorem setTablet_tablets (t : Tablet) : (m.setTablet id t).tablets = m.tablets.insert id t := rfl

@[simp] theorem reserve_tablets : (m.reserve id).tablets = m.tablets := rfl

@[simp] theorem insertTablet_nextTabletId (t : Tablet) :
    (m.insertTablet id t).nextTabletId = m.nextTabletId := rfl

@[simp] theorem removeTablet_nextTabletId : (m.removeTablet id).nextTabletId = m.nextTabletId := rfl

@[simp] theorem setTablet_nextTabletId (t : Tablet) : (m.setTablet id t).nextTabletId = m.nextTabletId := rfl

@[simp] theorem reserve_nextTabletId : (m.reserve id).nextTabletId = max m.nextTabletId (id + 1) := rfl

def childTablet (cut : Cutover) (child : SplitChild) (range : KeyRange) : Tablet :=
  { Tablet.withTable child.id cut.table range child.replicas with state := .active, epoch := Epoch.initial + 1 }

@[simp] theorem cutoverChild_tablets (cut : Cutover) (child : SplitChild) (range : KeyRange) :
    (m.cutoverChild cut child range).tablets = m.tablets.insert child.id (childTablet cut child range) := rfl

@[simp] theorem cutoverChild_nextTabletId (cut : Cutover) (child : SplitChild) (range : KeyRange) :
    (m.cutoverChild cut child range).nextTabletId = m.nextTabletId := rfl

variable (ids : List TabletId)

theorem foldl_dropTablet_replicated (m : Metadata) :
    (ids.foldl dropTablet m).toReplicated = { m.toReplicated with
      tablets := ids.foldl (fun map id => map.erase id) m.tablets
      policies := ids.foldl (fun map id => map.erase id) m.policies } := by
  induction ids generalizing m with
  | nil => rfl
  | cons id rest ih =>
    rw [foldl_cons, ih]
    rfl

theorem foldl_dropTablet_get (m : Metadata) (id : TabletId) :
    (ids.foldl dropTablet m).tablets[id]? = if id ∈ ids then none else m.tablets[id]? := by
  rw [foldl_dropTablet_replicated, foldl_erase_get]

theorem Indexed.foldl_dropTablet (h : m.Indexed) : (ids.foldl Metadata.dropTablet m).Indexed := by
  induction ids generalizing m with
  | nil => exact h
  | cons first rest ih => exact ih (h.removeTablet first)

/-- Dropping the tablets of a table leaves those of the others. -/
theorem Indexed.dropTable_get (h : m.Indexed) (table : TableName) (id : TabletId) :
    (((m.tabletsForTable table).map Prod.fst).foldl Metadata.dropTablet m).tablets[id]? =
      m.tablets[id]?.filter fun t => t.table ≠ some table := by
  have hmem : id ∈ (m.tabletsForTable table).map Prod.fst ↔ ∃ t : Tablet, m.tablets[id]? = some t ∧
    t.table = some table := by
    rw [h.tabletsForTable]
    simp only [List.mem_map, Prod.exists, exists_and_right, exists_eq_right, mem_scanForTable]
  rw [foldl_dropTablet_get]
  simp only [hmem]
  cases m.tablets[id]? with
  | none => simp
  | some t => by_cases ht : t.table = some table <;> simp [ht, Option.filter]

theorem Indexed.reserve (h : m.Indexed) (id : TabletId) : (m.reserve id).Indexed := h

theorem Indexed.step (h : m.Indexed) {c : MetaCommand} {m' : Metadata} (hstep : TabletStep m c m') :
    m'.Indexed := by
  have hof : ∀ {m₀ : Metadata}, m₀.Indexed → SameTablets m₀ m' → m'.Indexed := by
    intro m₀ h₀ hsame
    unfold Indexed at h₀ ⊢
    rwa [hsame.tablets, hsame.tabletIndex]
  cases hstep with
  | same hsame => exact hof h hsame
  | create tablet table range replicas _ _ _ hsame | build tablet table replicas _ _ _ hsame =>
    exact hof ((h.insertTablet tablet _).reserve tablet) hsame
  | update id old t hold htable _ _ _ hsame => exact hof (h.setTablet hold htable) hsame
  | activate id old hold _ hsame => exact hof (h.setTablet hold (by rfl)) hsame
  | split parent epoch source intent hsource _ _ _ _ hsame =>
    have hreserved := (h.reserve intent.left.id).reserve intent.right.id
    exact hof (hreserved.setTablet hsource (by rfl)) hsame
  | cutover parent epoch wallMs source intent left right cut _ _ _ _ _ _ _ hsame =>
    have hleft : (m.cutoverChild cut intent.left left).Indexed := h.insertTablet intent.left.id _
    have hright : ((m.cutoverChild cut intent.left left).cutoverChild cut intent.right right).Indexed :=
      hleft.insertTablet intent.right.id _
    exact hof (hright.removeTablet parent) hsame
  | drop table hsame => exact hof (h.foldl_dropTablet _) hsame

theorem Indexed.apply (h : m.Indexed) (c : MetaCommand) : (m.apply c).2.Indexed :=
  (h.prepared c).step (m.apply_tabletStep c)

end Metadata

end AnimusDb.Catalog
