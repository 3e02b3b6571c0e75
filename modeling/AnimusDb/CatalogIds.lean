import AnimusDb.CatalogTablets

/-! Tablet ids are never reused. The allocator stays above every id that was given to a tablet or reserved
for a child of a split, and only the cutover of that split gives out a reserved id. -/

open OrderedMaps AnimusDb.Placement List
open AnimusDb.Tablet (KeyRange)

namespace AnimusDb.Catalog

/-- The greatest id, which no tablet may have. -/
def maxId : Nat := 2 ^ 64 - 1

theorem toNat_succ {id : UInt64} (h : id.toNat < maxId) : (id + 1).toNat = id.toNat + 1 := by
  unfold maxId at h
  rw [UInt64.toNat_add]
  exact Nat.mod_eq_of_lt (by simpa using (by omega : id.toNat + 1 < 2 ^ 64))

def MetaCommand.newIds : MetaCommand → List TabletId
  | .createTablet tablet .. => [tablet]
  | .beginSplitInPlace _ _ _ left right => [left.id, right.id]
  | c => c.target.toList.map Prod.snd

def InPlaceSplitIntent.ids (intent : InPlaceSplitIntent) : List TabletId := [intent.left.id, intent.right.id]

variable {k : TabletId}

variable {tablets : OrdMap TabletId Tablet} {parent id : TabletId} {t : Tablet}

/-- The tablet holds an intent that reserves the id. -/
def Reserves (tablets : OrdMap TabletId Tablet) (parent id : TabletId) : Prop :=
  ∃ (source : Tablet) (intent : InPlaceSplitIntent),
    tablets[parent]? = some source ∧ source.inplaceSplit = some intent ∧ id ∈ intent.ids

theorem Reserves.of_insert (h : Reserves (tablets.insert k t) parent id) :
    (parent = k ∧ ∃ intent, t.inplaceSplit = some intent ∧ id ∈ intent.ids) ∨ Reserves tablets parent id := by
  obtain ⟨source, intent, hsource, hintent, hid⟩ := h
  rw [get_insert] at hsource
  split_ifs at hsource with hk
  · cases hsource
    exact .inl ⟨hk.symm, intent, hintent, hid⟩
  · exact .inr ⟨source, intent, hsource, hintent, hid⟩

theorem Reserves.of_insert_none (h : Reserves (tablets.insert k t) parent id) (ht : t.inplaceSplit = none) :
    Reserves tablets parent id := by
  rcases h.of_insert with ⟨-, intent, hintent, -⟩ | h
  · rw [ht] at hintent
    cases hintent
  · exact h

theorem Reserves.of_erase (h : Reserves (tablets.erase k) parent id) :
    parent ≠ k ∧ Reserves tablets parent id := by
  obtain ⟨source, intent, hsource, hintent, hid⟩ := h
  rw [get_erase] at hsource
  split_ifs at hsource with hk
  exact ⟨Ne.symm hk, source, intent, hsource, hintent, hid⟩

namespace Metadata

variable {m m' : Metadata} {c : MetaCommand}

/-- What the allocator guarantees. -/
structure Ledger (m : Metadata) : Prop where
  /-- Every tablet's id lies below the allocator. -/
  given : ∀ id : TabletId, m.tablets[id]? ≠ none → id.toNat < m.nextTabletId.toNat
  /-- So does every reserved id, and no tablet has it. -/
  reserved : ∀ parent id : TabletId, Reserves m.tablets parent id → id.toNat < m.nextTabletId.toNat ∧
    m.tablets[id]? = none
  /-- An id is reserved by one tablet only. -/
  single : ∀ parent parent' id : TabletId, Reserves m.tablets parent id → Reserves m.tablets parent' id →
    parent = parent'

/-- The rows are of one tablet: its table and its range are the same. -/
def SameTablet (old t : Tablet) : Prop := old.table = t.table ∧ old.range = t.range

/-- After the command a tablet has the id that did not have it before. -/
def Gives (m : Metadata) (c : MetaCommand) (id : TabletId) : Prop :=
  ∃ t, (m.apply c).2.tablets[id]? = some t ∧ ∀ old, m.tablets[id]? = some old → ¬ SameTablet old t

/-- The command is an applied begin of a split that reserves the id for a child. -/
def SplitReserves (m : Metadata) (c : MetaCommand) (parent id : TabletId) : Prop :=
  (m.apply c).1 = .applied ∧
    ∃ epoch key left right, c = .beginSplitInPlace parent epoch key left right ∧
    (id = left.id ∨ id = right.id)

theorem ledger_default : Ledger {} := by
  have hnone : ∀ parent id, ¬ Reserves ({} : Metadata).tablets parent id := by
    rintro parent id ⟨source, intent, hsource, -⟩
    simp at hsource
  refine ⟨?_, fun parent id h => absurd h (hnone parent id), fun parent _ id h => absurd h (hnone parent id)⟩
  intro id h
  simp at h

theorem nextTabletId_le_nextFree (m : Metadata) : m.nextTabletId.toNat ≤ m.nextFreeTabletId.toNat := by
  simp only [nextFreeTabletId, UInt64.toNat_max]
  omega

theorem nextTabletId_le_of_floor (h : m.nextFreeTabletId ≤ id) : m.nextTabletId.toNat ≤ id.toNat :=
  m.nextTabletId_le_nextFree.trans (UInt64.le_iff_toNat_le.mp h)

/-- What a step may do to ids: it keeps the tablets that stay, takes fresh ids, or gives out reserved ones. -/
inductive IdStep (m : Metadata) (c : MetaCommand) (m' : Metadata) : Prop where
  /-- No tablet gets an id and none reserves one. -/
  | keep : (∀ (id : TabletId) (t : Tablet), m'.tablets[id]? = some t →
      ∃ old, m.tablets[id]? = some old ∧ SameTablet old t ∧ old.inplaceSplit = t.inplaceSplit) →
      m'.nextTabletId = m.nextTabletId → IdStep m c m'
  /-- One tablet is put under a fresh id. -/
  | mint (id : TabletId) (t : Tablet) : id ∈ c.newIds → m.nextFreeTabletId ≤ id → t.inplaceSplit = none →
      m'.tablets = m.tablets.insert id t → m'.nextTabletId = max m.nextTabletId (id + 1) → IdStep m c m'
  /-- A tablet reserves two fresh ids. -/
  | reserve (parent : TabletId) (epoch : Epoch) (source t : Tablet) (intent : InPlaceSplitIntent) :
      c = .beginSplitInPlace parent epoch intent.splitKey intent.left intent.right →
      m.tablets[parent]? = some source → SameTablet source t → t.inplaceSplit = some intent →
      (∀ id ∈ intent.ids, m.tablets[id]? = none ∧ m.nextFreeTabletId ≤ id) →
      m'.tablets = m.tablets.insert parent t →
      m'.nextTabletId = max (max m.nextTabletId (intent.left.id + 1)) (intent.right.id + 1) → IdStep m c m'
  /-- The two reserved ids of a tablet are given to its children, and it goes. -/
  | cutover (parent : TabletId) (epoch : Epoch) (wallMs : Nat) (source left right : Tablet)
      (intent : InPlaceSplitIntent) :
      c = .cutoverSplit parent epoch wallMs → m.tablets[parent]? = some source → source.inplaceSplit = some intent →
      left.inplaceSplit = none → right.inplaceSplit = none →
      m'.tablets = ((m.tablets.insert intent.left.id left).insert intent.right.id right).erase parent →
      m'.nextTabletId = m.nextTabletId → IdStep m c m'

theorem mem_newIds_of_target {table : TableName} (h : c.target = some (table, id)) : id ∈ c.newIds := by
  cases c <;> simp_all [MetaCommand.target, MetaCommand.newIds]

/-- A row replaced in place, with its table, range and intent. -/
theorem idStep_of_set {id₀ : TabletId} {old : Tablet} (t₀ : Tablet) (hold : m.tablets[id₀]? = some old)
    (hsame : SameTablet old t₀)
    (hintent : old.inplaceSplit = t₀.inplaceSplit) (htablets : m'.tablets = m.tablets.insert id₀ t₀)
    (hnext : m'.nextTabletId = m.nextTabletId) : IdStep m c m' := by
  refine .keep ?_ hnext
  intro id t ht
  rw [htablets, get_insert] at ht
  split_ifs at ht with hid
  · cases ht
    exact ⟨old, hid ▸ hold, hsame, hintent⟩
  · exact ⟨t, ht, ⟨rfl, rfl⟩, rfl⟩

theorem apply_idStep (m : Metadata) (c : MetaCommand) : IdStep m c (m.apply c).2 := by
  have hstep := m.apply_tabletStep c
  have hprepared := m.prepared_replicated c
  generalize (m.apply c).2 = m' at hstep
  -- preparing touches the index only
  generalize m.prepared c = m₀ at hstep hprepared
  obtain ⟨r, index, rev⟩ := m₀
  cases hprepared
  cases hstep with
  | same hsame =>
    refine .keep ?_ hsame.nextTabletId
    intro id t ht
    rw [hsame.tablets] at ht
    exact ⟨t, ht, ⟨rfl, rfl⟩, rfl⟩
  | create tablet table range replicas _ _ hfloor hsame =>
    refine .mint tablet (.withTable tablet table range replicas) (by simp [MetaCommand.newIds]) hfloor rfl ?_ ?_
    · simpa using hsame.tablets
    · simpa using hsame.nextTabletId
  | build tablet table replicas hc _ hfloor hsame =>
    refine .mint tablet (buildingTablet tablet table replicas) (mem_newIds_of_target hc) hfloor rfl ?_ ?_
    · simpa using hsame.tablets
    · simpa using hsame.nextTabletId
  | update id₀ old t₀ hold htable hrange _ hintent hsame =>
    exact idStep_of_set t₀ hold ⟨htable.symm, hrange.symm⟩ hintent.symm (by simpa using hsame.tablets)
      (by simpa using hsame.nextTabletId)
  | activate id₀ old hold _ hsame =>
    exact idStep_of_set { old with state := .active, epoch := old.epoch + 1 } hold ⟨rfl, rfl⟩ rfl
      (by simpa using hsame.tablets) (by simpa using hsame.nextTabletId)
  | split parent epoch source intent hsource _ _ _ hfresh hsame =>
    refine .reserve parent epoch source
      { source with state := .splitting, inplaceSplit := some intent, epoch := source.epoch + 1 } intent rfl
      hsource ⟨rfl, rfl⟩ rfl hfresh ?_ ?_
    · simpa using hsame.tablets
    · simpa using hsame.nextTabletId
  | cutover parent epoch wallMs source intent left right cut hsource _ hintent _ _ _ _ hsame =>
    refine .cutover parent epoch wallMs source (childTablet cut intent.left left)
      (childTablet cut intent.right right) intent
      rfl hsource hintent rfl rfl ?_ ?_
    · simpa using hsame.tablets
    · simpa using hsame.nextTabletId
  | drop table hsame =>
    refine .keep ?_ (by rw [hsame.nextTabletId, foldl_dropTablet_replicated])
    intro id t ht
    rw [hsame.tablets, foldl_dropTablet_get] at ht
    split_ifs at ht
    exact ⟨t, ht, ⟨rfl, rfl⟩, rfl⟩

/-- The ids that the command asks for lie below the greatest. -/
def IdsInRange (c : MetaCommand) : Prop := ∀ id ∈ c.newIds, id.toNat < maxId

theorem IdStep.mono (h : IdStep m c m') : m.nextTabletId.toNat ≤ m'.nextTabletId.toNat := by
  cases h with
  | keep _ hnext => rw [hnext]
  | mint _ _ _ _ _ _ hnext =>
    rw [hnext, UInt64.toNat_max]
    exact le_max_left _ _
  | reserve _ _ _ _ _ _ _ _ _ _ _ hnext =>
    rw [hnext, UInt64.toNat_max, UInt64.toNat_max]
    omega
  | cutover _ _ _ _ _ _ _ _ _ _ _ _ _ hnext => rw [hnext]

/-- A reservation after a step was there before, or the step is the begin of that split. -/
theorem IdStep.reserves (h : IdStep m c m') (hres : Reserves m'.tablets parent id) :
    Reserves m.tablets parent id ∨ (m.nextFreeTabletId ≤ id ∧ m'.tablets[id]? = none ∧
      (IdsInRange c → id.toNat < m'.nextTabletId.toNat) ∧
      ∃ epoch key left right, c = .beginSplitInPlace parent epoch key left right) := by
  cases h with
  | keep hrows _ =>
    obtain ⟨source, intent, hsource, hintent, hid⟩ := hres
    obtain ⟨old, hold, -, hsame⟩ := hrows _ _ hsource
    exact .inl ⟨old, intent, hold, hsame.trans hintent, hid⟩
  | mint id₀ t _ _ hnone htablets _ =>
    rw [htablets] at hres
    exact .inl (hres.of_insert_none hnone)
  | reserve parent₀ epoch source t intent hc hsource _ ht hfresh htablets hnext =>
    rw [htablets] at hres
    rcases hres.of_insert with ⟨rfl, intent', hintent', hid⟩ | hres
    · cases ht.symm.trans hintent'
      refine .inr ⟨(hfresh id hid).2, ?_, fun hrange => ?_, epoch, _, _, _, hc⟩
      · have hfree := (hfresh id hid).1
        have hne : parent ≠ id := fun heq => by simp [← heq, hsource] at hfree
        rw [htablets, get_insert, if_neg hne, hfree]
      · have hlimit : id.toNat < maxId := hrange id (by rw [hc]; exact hid)
        simp only [InPlaceSplitIntent.ids, mem_cons, not_mem_nil, or_false] at hid
        rw [hnext, UInt64.toNat_max, UInt64.toNat_max]
        rcases hid with rfl | rfl <;> rw [toNat_succ hlimit] <;> omega
    · exact .inl hres
  | cutover parent₀ epoch wallMs source left right intent _ _ _ hleft hright htablets _ =>
    rw [htablets] at hres
    exact .inl ((hres.of_erase.2.of_insert_none hright).of_insert_none hleft)

/-- An id that a step gives to a tablet is fresh, or the step is the cutover of the split that reserved it. -/
theorem IdStep.gives (h : IdStep m c m') {t : Tablet} (ht : m'.tablets[id]? = some t)
    (hnew : ∀ old, m.tablets[id]? = some old → ¬ SameTablet old t) :
    (m.nextFreeTabletId ≤ id ∧ (IdsInRange c → id.toNat < m'.nextTabletId.toNat)) ∨
      ∃ parent epoch wallMs, c = .cutoverSplit parent epoch wallMs ∧ Reserves m.tablets parent id ∧
        m'.tablets[parent]? = none := by
  have hstay : m.tablets[id]? ≠ some t := fun hold => hnew t hold ⟨rfl, rfl⟩
  cases h with
  | keep hrows _ =>
    obtain ⟨old, hold, hsame, -⟩ := hrows _ _ ht
    exact absurd hsame (hnew old hold)
  | mint id₀ t₀ hmem hfloor _ htablets hnext =>
    rw [htablets, get_insert] at ht
    split_ifs at ht with heq
    · subst heq
      refine .inl ⟨hfloor, fun hrange => ?_⟩
      rw [hnext, UInt64.toNat_max, toNat_succ (hrange _ hmem)]
      omega
    · exact absurd ht hstay
  | reserve parent epoch source t₀ intent _ hsource hsame _ _ htablets _ =>
    rw [htablets, get_insert] at ht
    split_ifs at ht with heq
    · cases ht
      exact absurd hsame (hnew source (heq ▸ hsource))
    · exact absurd ht hstay
  | cutover parent epoch wallMs source left right intent hc hsource hintent _ _ htablets _ =>
    have hgone : m'.tablets[parent]? = none := by rw [htablets, get_erase, if_pos rfl]
    refine .inr ⟨parent, epoch, wallMs, hc, ⟨source, intent, hsource, hintent, ?_⟩, hgone⟩
    rw [htablets, get_erase, get_insert, get_insert] at ht
    split_ifs at ht with _ hr hl
    · simp [InPlaceSplitIntent.ids, hr]
    · simp [InPlaceSplitIntent.ids, hl]
    · exact absurd ht hstay

theorem Ledger.step (h : m.Ledger) (hc : IdsInRange c) (hstep : IdStep m c m') : m'.Ledger := by
  have hmono := hstep.mono
  have hnot_fresh : ∀ {parent id : TabletId}, Reserves m.tablets parent id → ¬ m.nextFreeTabletId ≤ id := by
    intro parent id hres hfloor
    have hbelow := (h.reserved parent id hres).1
    have habove := nextTabletId_le_of_floor hfloor
    omega
  refine ⟨fun id hid => ?_, fun parent id hres => ?_, fun parent parent' id hres hres' => ?_⟩
  · by_cases hold : m.tablets[id]? = none
    · obtain ⟨t, ht⟩ := Option.ne_none_iff_exists'.mp hid
      rcases hstep.gives ht (by simp [hold]) with ⟨-, hbelow⟩ | ⟨parent, _, _, -, hres, -⟩
      · exact hbelow hc
      · exact (h.reserved parent id hres).1.trans_le hmono
    · exact (h.given id hold).trans_le hmono
  · rcases hstep.reserves hres with hold | ⟨-, hnone, hbelow, -⟩
    · obtain ⟨hlt, hfree⟩ := h.reserved parent id hold
      refine ⟨hlt.trans_le hmono, ?_⟩
      by_contra hid
      obtain ⟨t, ht⟩ := Option.ne_none_iff_exists'.mp hid
      rcases hstep.gives ht (by simp [hfree]) with ⟨hfloor, -⟩ | ⟨parent', _, _, -, hres', hgone⟩
      · exact hnot_fresh hold hfloor
      · -- the id was reserved by the parent of this cutover alone, which is gone
        obtain ⟨source, _, hsource, -⟩ := hres
        rw [h.single parent parent' id hold hres', hgone] at hsource
        cases hsource
    · exact ⟨hbelow hc, hnone⟩
  · rcases hstep.reserves hres with hold | ⟨hfloor, -, -, _, _, _, _, hcmd⟩ <;>
      rcases hstep.reserves hres' with hold' | ⟨hfloor', -, -, _, _, _, _, hcmd'⟩
    · exact h.single parent parent' id hold hold'
    · exact absurd hfloor' (hnot_fresh hold)
    · exact absurd hfloor (hnot_fresh hold')
    · rw [hcmd] at hcmd'
      cases hcmd'
      rfl

theorem Ledger.run (commands : List MetaCommand) (h : m.Ledger) (hc : ∀ c ∈ commands, IdsInRange c) :
    (m.run commands).Ledger := by
  induction commands generalizing m with
  | nil => exact h
  | cons c rest ih =>
    exact ih (h.step (hc c mem_cons_self) (m.apply_idStep c)) fun d hd => hc d (mem_cons_of_mem c hd)

/-- The allocator is past the id, and only `holder` may still reserve it. -/
structure Spent (m : Metadata) (holder : Option TabletId) (id : TabletId) : Prop where
  below : id.toNat < m.nextTabletId.toNat
  held : ∀ parent, Reserves m.tablets parent id → holder = some parent

variable {holder : Option TabletId}

theorem Spent.step (h : m.Spent holder id) (hstep : IdStep m c m') : m'.Spent holder id := by
  refine ⟨h.below.trans_le hstep.mono, fun parent hres => ?_⟩
  rcases hstep.reserves hres with hold | ⟨hfloor, -⟩
  · exact h.held parent hold
  · have := nextTabletId_le_of_floor hfloor
    have := h.below
    omega

theorem Spent.run (commands : List MetaCommand) (h : m.Spent holder id) :
    (m.run commands).Spent holder id := by
  induction commands generalizing m with
  | nil => exact h
  | cons c rest ih => exact ih (h.step (m.apply_idStep c))

theorem Spent.gives (h : m.Spent holder id) (hgives : m.Gives c id) :
    ∃ parent epoch wallMs, c = .cutoverSplit parent epoch wallMs ∧ holder = some parent := by
  obtain ⟨t, ht, hnew⟩ := hgives
  rcases (m.apply_idStep c).gives ht hnew with ⟨hfloor, -⟩ | ⟨parent, epoch, wallMs, hcmd, hres, -⟩
  · have := nextTabletId_le_of_floor hfloor
    have := h.below
    omega
  · exact ⟨parent, epoch, wallMs, hcmd, h.held parent hres⟩

theorem Ledger.spent_of_gives (h : m.Ledger) (hc : IdsInRange c) (hgives : m.Gives c id) :
    (m.apply c).2.Spent none id := by
  have hafter := h.step hc (m.apply_idStep c)
  obtain ⟨t, ht, -⟩ := hgives
  have hpresent : (m.apply c).2.tablets[id]? ≠ none := by simp [ht]
  exact ⟨hafter.given id hpresent, fun parent hres => absurd (hafter.reserved parent id hres).2 hpresent⟩

theorem run_append (m : Metadata) (before after : List MetaCommand) :
    m.run (before ++ after) = (m.run before).run after := by
  induction before generalizing m with
  | nil => rfl
  | cons c rest ih => exact ih (m.apply c).2

theorem SplitReserves.reserves (h : m.SplitReserves c parent id) :
    Reserves (m.apply c).2.tablets parent id := by
  obtain ⟨happlied, epoch, key, left, right, rfl, hid⟩ := h
  rcases m.apply_cases (.beginSplitInPlace parent epoch key left right) with ⟨post, hpost,
    happly⟩ | ⟨refusal, -, happly⟩
  · have hreserves : Fallible.Ensures (fun m' => Reserves m'.tablets parent id)
        ((m.prepared (.beginSplitInPlace parent epoch key left right)).beginSplitInPlace parent epoch key left
        right) := by
      simp only [beginSplitInPlace, ensures_rules]
      refine fun _ => Fallible.ensures_of_forall fun _ => Fallible.ensures_of_forall fun _ source _ _ _ _ _ => ?_
      rw [setTablet_tablets]
      exact ⟨_, _, by rw [get_insert, if_pos rfl], rfl, by simpa [InPlaceSplitIntent.ids] using hid⟩
    have hid' : Reserves post.tablets parent id := hreserves.of_eq hpost
    rwa [happly]
  · rw [happly] at happlied
    cases refusal <;> cases happlied

/-- The text of the rejection for a child id that a tablet already has. -/
def childOccupied : String := "child tablet id already occupied — allocator invariant violated"

theorem Ledger.cutoverSplit_ne_occupied (h : m.Ledger) (parent : TabletId) (epoch : Epoch) (wallMs : Nat) :
    m.cutoverSplit parent epoch wallMs ≠ .error (.rejected childOccupied) := by
  unfold cutoverSplit
  cases hsource : m.tablets[parent]? with
  | none => simp [orReject, reject, bind, Except.bind, childOccupied]
  | some source =>
    simp only [orReject, bind, Except.bind]
    by_cases hepoch : source.epoch ≠ epoch
    · simp [hepoch, reject, childOccupied]
    by_cases hstate : source.state ≠ .splitting
    · simp [hepoch, hstate, reject, childOccupied]
    rw [if_neg hepoch, if_neg hstate]
    cases hintent : source.inplaceSplit with
    | none => simp [reject, childOccupied]
    | some intent =>
      cases hranges : source.range.splitAt intent.splitKey with
      | none => simp [hranges, reject, childOccupied]
      | some ranges =>
        have hfree : ∀ id ∈ intent.ids, m.tablets.contains id = false := by
          intro id hid
          rw [contains_eq, (h.reserved parent id ⟨source, intent, hsource, hintent, hid⟩).2]
          rfl
        have hleft := hfree intent.left.id (by simp [InPlaceSplitIntent.ids])
        have hright := hfree intent.right.id (by simp [InPlaceSplitIntent.ids])
        simp [hranges, hleft, hright]

-- decided along the list, not over all ids
instance (c : MetaCommand) : Decidable (IdsInRange c) :=
    decidableBAll (fun id : TabletId => id.toNat < maxId) c.newIds

/-- **Tablet ids are never reused.** In every run whose ids stay below the greatest, an id given to a tablet
is not given again, an id reserved for a child of a split is given out only by that split's cutover, and no
cutover is rejected because a child's id is taken. -/
theorem tablet_ids_never_reused (commands : List MetaCommand) (hids : ∀ c ∈ commands, IdsInRange c) :
    (∀ before c between d after id, commands = before ++ c :: (between ++ d :: after) →
      (run {} before).Gives c id → ¬ (run {} (before ++ c :: between)).Gives d id) ∧
    (∀ before c between d after parent id, commands = before ++ c :: (between ++ d :: after) →
      (run {} before).SplitReserves c parent id → (run {} (before ++ c :: between)).Gives d id →
        ∃ epoch wallMs, d = .cutoverSplit parent epoch wallMs) ∧
    ∀ parent epoch wallMs, ((run {} commands).apply (.cutoverSplit parent epoch wallMs)).1 ≠
      .rejected "child tablet id already occupied — allocator invariant violated" := by
  have hledger : ∀ before c after, commands = before ++ c :: after → (run {} before).Ledger ∧ IdsInRange c := by
    rintro before c after rfl
    exact ⟨ledger_default.run before fun d hd => hids d (by simp [hd]), hids c (by simp)⟩
  refine ⟨?_, ?_, ?_⟩
  · intro before c between d after id hsplit hgives hagain
    obtain ⟨hbefore, hc⟩ := hledger before c _ hsplit
    have hspent := (hbefore.spent_of_gives hc hgives).run between
    rw [run_append] at hagain
    obtain ⟨parent, epoch, wallMs, -, hholder⟩ := hspent.gives hagain
    cases hholder
  · intro before c between d after parent id hsplit hreserves hgives
    obtain ⟨hbefore, hc⟩ := hledger before c _ hsplit
    -- a reserved id is spent, and only the tablet being split reserves it
    have hafter := hbefore.step hc (apply_idStep _ c)
    have hres := hreserves.reserves
    have hspent : Spent _ (some parent) id := ⟨(hafter.reserved parent id hres).1, fun parent' hres' =>
      congrArg some (hafter.single parent parent' id hres hres')⟩
    replace hspent := hspent.run between
    rw [run_append] at hgives
    obtain ⟨parent', epoch, wallMs, rfl, hholder⟩ := hspent.gives hgives
    cases hholder
    exact ⟨epoch, wallMs, rfl⟩
  · intro parent epoch wallMs hrejected
    have hne := (ledger_default.run commands hids).cutoverSplit_ne_occupied parent epoch wallMs
    rcases (run {} commands).apply_cases (.cutoverSplit parent epoch wallMs) with
      ⟨post, -, happly⟩ | ⟨refusal, hpost, happly⟩ <;> rw [happly] at hrejected
    · cases hrejected
    · cases refusal with
      | noOp => cases hrejected
      | rejected reason =>
        cases hrejected
        exact hne hpost

/-- A table is created and split, its children are dropped, and a child's id is asked for again. -/
def splitHistory : List MetaCommand :=
  [.createTablet 1 (some "t") .whole ["a"], .beginSplitInPlace 1 1 [5] ⟨2, ["a"]⟩ ⟨3, ["a"]⟩,
    .cutoverSplit 1 2 0, .dropTableTablets "t", .createTablet 2 (some "u") .whole ["a"]]

theorem tablet_ids_never_reused_split :
    (∀ c ∈ splitHistory, IdsInRange c) ∧ (run {} (splitHistory.take 2)).Gives (.cutoverSplit 1 2 0) 2 ∧
      ¬ (run {} (splitHistory.take 4)).Gives (.createTablet 2 (some "u") .whole ["a"]) 2 := by
  have hids : ∀ c ∈ splitHistory, IdsInRange c := by decide +kernel
  have hgives : (run {} (splitHistory.take 2)).Gives (.cutoverSplit 1 2 0) 2 := by
    refine ⟨{ Tablet.withTable 2 (some "t") ⟨[], some [5]⟩ ["a"] with
      state := .active, epoch := 2 }, by decide +kernel, ?_⟩
    have habsent : (run {} (splitHistory.take 2)).tablets[(2 : TabletId)]? = none := by decide +kernel
    intro old hold
    rw [habsent] at hold
    cases hold
  exact ⟨hids, hgives, (tablet_ids_never_reused splitHistory hids).1
    (splitHistory.take 2) _ [.dropTableTablets "t"] _ [] 2 rfl hgives⟩

end Metadata

end AnimusDb.Catalog
