import AnimusDb.CatalogApply

/-! The index of the tablet map by table answers as a scan of the map would, also when it was not rebuilt
after a restart: it is either exact, or empty with a total of zero. -/

open OrderedMaps AnimusDb.Placement List Option

namespace AnimusDb.Catalog

variable {κ α : Type} [Ord κ] [Std.TransOrd κ] [Std.LawfulEqOrd κ]

/-- Lists in the order of their keys are determined by their members. -/
theorem eq_of_ordered {xs ys : List (κ × α)}
    (hxs : xs.Pairwise fun a b => compare a.1 b.1 = .lt) (hys : ys.Pairwise fun a b => compare a.1 b.1 = .lt)
    (hmem : ∀ entry, entry ∈ xs ↔ entry ∈ ys) : xs = ys := by
  have hirrefl : ∀ a : κ × α, compare a.1 a.1 ≠ .lt := by
    intro a
    rw [Std.ReflOrd.compare_self]
    decide
  have hnodup : ∀ {zs : List (κ × α)}, zs.Pairwise (fun a b => compare a.1 b.1 = .lt) → zs.Nodup := by
    intro zs hzs
    refine hzs.imp ?_
    rintro a _ hlt rfl
    exact hirrefl a hlt
  have hperm : xs.Perm ys := (perm_ext_iff_of_nodup (hnodup hxs) (hnodup hys)).mpr hmem
  refine hperm.eq_of_pairwise ?_ hxs hys
  intro a b _ _ hab hba
  rw [Std.OrientedOrd.eq_swap, hba] at hab
  cases hab

variable {id : TabletId} {t : Tablet}

namespace TabletIndex

variable {ix : TabletIndex} {tablets : OrdMap TabletId Tablet}

/-- The index names the tablet under the table. -/
def Lists (ix : TabletIndex) (table : TableName) (id : TabletId) : Prop :=
  ((ix.byTable[table]?).getD ∅)[id]? = some ()

/-- The index lists exactly the tablets of each table. -/
def Exact (ix : TabletIndex) (tablets : OrdMap TabletId Tablet) : Prop :=
  ∀ table id, ix.Lists table id ↔ ∃ t, tablets[id]? = some t ∧ t.table = some table

theorem mem_ids (table : TableName) (id : TabletId) : id ∈ ix.ids table ↔ ix.Lists table id := by
  unfold ids Lists
  cases ix.byTable[table]? with
  | none => simp
  | some ids =>
    simp only [elim_some, getD_some, Std.ExtTreeMap.mem_keys]
    rw [Std.ExtTreeMap.mem_iff_isSome_getElem?]
    cases ids[id]? <;> simp

theorem ids_ordered (table : TableName) : (ix.ids table).Pairwise fun a b => compare a b = .lt := by
  unfold ids
  cases ix.byTable[table]? with
  | none => exact List.Pairwise.nil
  | some ids => exact Std.ExtTreeMap.ordered_keys

variable (table : Option TableName)

theorem lists_add (id : TabletId) (table' : TableName) (id' : TabletId) :
    (ix.add table id).Lists table' id' ↔ (table = some table' ∧ id = id') ∨ ix.Lists table' id' := by
  cases table with
  | none => simp [add]
  | some table =>
    simp only [add, Lists, get_insert, some.injEq]
    by_cases htable : table = table'
    · subst htable
      by_cases hid : id = id' <;> simp [get_insert, hid]
    · simp [htable]

theorem lists_remove (id : TabletId) (table' : TableName) (id' : TabletId) :
    (ix.remove table id).Lists table' id' ↔ ix.Lists table' id' ∧ ¬ (table = some table' ∧ id = id') := by
  cases table with
  | none => simp [remove]
  | some table =>
    cases hids : ix.byTable[table]? with
    | none =>
      have hsame : ix.remove (some table) id = ix := by simp [remove, hids]
      rw [hsame]
      refine ⟨fun h => ⟨h, ?_⟩, And.left⟩
      rintro ⟨heq, -⟩
      cases heq
      simp [Lists, hids] at h
    | some ids =>
      -- whether the table's emptied set is dropped or kept, it lists the same ids
      have hlookup : ((ix.remove (some table) id).byTable[table']?).getD ∅ =
          if table = table' then ids.erase id else (ix.byTable[table']?).getD ∅ := by
        simp only [remove, bind_some, hids, map_some]
        by_cases hempty : (ids.erase id).isEmpty
        · rw [if_pos hempty, get_erase]
          split_ifs with htable
          · exact (Std.ExtTreeMap.isEmpty_iff.mp hempty).symm
          · rfl
        · rw [if_neg hempty, get_insert]
          split_ifs <;> rfl
      unfold Lists
      rw [hlookup]
      by_cases htable : table = table'
      · subst htable
        rw [if_pos rfl, get_erase, hids]
        by_cases hid : id = id' <;> simp [hid]
      · simp [htable]

/-- Without a tablet's old row the index lists the others. -/
theorem Exact.lists_others (h : ix.Exact tablets) (id : TabletId) (table : TableName) (id' : TabletId) :
    (tablets[id]?.elim ix fun old => ix.remove old.table id).Lists table id' ↔
      id ≠ id' ∧ ∃ t, tablets[id']? = some t ∧ t.table = some table := by
  rw [← h table id']
  by_cases hid : id = id'
  · subst hid
    cases hold : tablets[id]? with
    | none => simp [h table id, hold]
    | some old => simp [lists_remove, h table id, hold]
  · cases tablets[id]? with
    | none => simp [hid]
    | some old => simp [lists_remove, hid]

/-- A row that is put takes the place of the old one in the index. -/
theorem Exact.insert (h : ix.Exact tablets) (id : TabletId) (t : Tablet) (total : Nat) :
    TabletIndex.Exact { (tablets[id]?.elim ix fun old => ix.remove old.table id).add t.table id with total }
      (tablets.insert id t) := by
  intro table id'
  refine (lists_add t.table id table id').trans ?_
  rw [h.lists_others, get_insert]
  by_cases hid : id = id' <;> simp [hid]

theorem Exact.erase (h : ix.Exact tablets) (id : TabletId) (total : Nat) :
    TabletIndex.Exact { (tablets[id]?.elim ix fun old => ix.remove old.table id) with total }
    (tablets.erase id) := by
  intro table id'
  refine (h.lists_others id table id').trans ?_
  rw [get_erase]
  by_cases hid : id = id' <;> simp [hid]

theorem lists_foldl_add (entries : List (TabletId × Tablet)) (ix : TabletIndex) (table : TableName)
    (id : TabletId) : (entries.foldl (fun ix (id, t) => ix.add t.table id) ix).Lists table id ↔
      ix.Lists table id ∨ ∃ t, (id, t) ∈ entries ∧ t.table = some table := by
  induction entries generalizing ix with
  | nil => simp
  | cons entry rest ih =>
    obtain ⟨id₀, t₀⟩ := entry
    rw [foldl_cons, ih, lists_add]
    simp only [mem_cons, Prod.mk.injEq]
    constructor
    · rintro ((⟨htable, rfl⟩ | h) | ⟨t, hmem, htable⟩)
      · exact .inr ⟨t₀, .inl ⟨rfl, rfl⟩, htable⟩
      · exact .inl h
      · exact .inr ⟨t, .inr hmem, htable⟩
    · rintro (h | ⟨t, ⟨rfl, rfl⟩ | hmem, htable⟩)
      · exact .inl (.inr h)
      · exact .inl (.inl ⟨htable, rfl⟩)
      · exact .inr ⟨t, hmem, htable⟩

/-- A rebuilt index is exact. -/
theorem exact_build (tablets : OrdMap TabletId Tablet) : (build tablets).Exact tablets := by
  intro table id
  unfold build
  rw [lists_foldl_add]
  have hempty : ¬ TabletIndex.Lists ⟨∅, tablets.size⟩ table id := by simp [Lists]
  simp [hempty, Std.ExtTreeMap.mem_toList_iff_getElem?_eq_some]

theorem total_add (id : TabletId) : (ix.add table id).total = ix.total := by
  cases table <;> rfl

theorem total_foldl_add (entries : List (TabletId × Tablet)) (ix : TabletIndex) :
    (entries.foldl (fun ix (id, t) => ix.add t.table id) ix).total = ix.total := by
  induction entries generalizing ix with
  | nil => rfl
  | cons entry rest ih =>
    rw [foldl_cons, ih, total_add]

end TabletIndex

namespace Metadata

variable {m m' : Metadata}

/-- The index is exact, or it is the empty one of a state that was read back from storage. -/
def Indexed (m : Metadata) : Prop :=
  (m.tabletIndex.total = m.tablets.size ∧ m.tabletIndex.Exact m.tablets) ∨
    (m.tabletIndex.total = 0 ∧ m.tabletIndex.byTable = ∅)

/-- An index that the lookups use is exact. -/
theorem Indexed.exact (h : m.Indexed) (hvalid : m.tabletIndex.isValid m.tablets.size) :
    m.tabletIndex.Exact m.tablets := by
  rcases h with ⟨-, hexact⟩ | ⟨htotal, hempty⟩
  · exact hexact
  · have hsize : m.tablets.size = 0 := by
      have htotal' : m.tabletIndex.total = m.tablets.size := of_decide_eq_true hvalid
      omega
    have htablets : m.tablets = ∅ := Std.ExtTreeMap.eq_empty_iff_size_eq_zero.mpr hsize
    intro table id
    simp [TabletIndex.Lists, hempty, htablets]

theorem indexed_default : Indexed {} := .inr ⟨rfl, rfl⟩

theorem Indexed.insertTablet (h : m.Indexed) (id : TabletId) (t : Tablet) :
    (m.insertTablet id t).Indexed := by
  by_cases hvalid : m.tabletIndex.isValid m.tablets.size
  · left
    simp only [Metadata.insertTablet, hvalid, if_true, true_and]
    exact (h.exact hvalid).insert id t _
  · right
    have hstale := h.resolve_left fun hexact => hvalid (decide_eq_true hexact.1)
    simpa [Metadata.insertTablet, hvalid] using hstale

theorem Indexed.removeTablet (h : m.Indexed) (id : TabletId) : (m.removeTablet id).Indexed := by
  by_cases hvalid : m.tabletIndex.isValid m.tablets.size
  · left
    simp only [Metadata.removeTablet, hvalid, if_true, true_and]
    exact (h.exact hvalid).erase id _
  · right
    have hstale := h.resolve_left fun hexact => hvalid (decide_eq_true hexact.1)
    simpa [Metadata.removeTablet, hvalid] using hstale

/-- Rows of the same tables are as many. -/
theorem size_of_tables
    (htables : ∀ id : TabletId, m'.tablets[id]?.map Tablet.table = m.tablets[id]?.map Tablet.table) :
    m'.tablets.size = m.tablets.size := by
  have hmap : m'.tablets.map (fun _ t => t.table) = m.tablets.map fun _ t => t.table :=
    Std.ExtTreeMap.ext_getElem? fun id => by simpa using htables id
  have hsize := congrArg Std.ExtTreeMap.size hmap
  rwa [Std.ExtTreeMap.size_map, Std.ExtTreeMap.size_map] at hsize

/-- The index judges by the tables of the rows only. -/
theorem Indexed.of_tables (h : m.Indexed) (hindex : m'.tabletIndex = m.tabletIndex)
    (htables : ∀ id : TabletId, m'.tablets[id]?.map Tablet.table = m.tablets[id]?.map Tablet.table) :
    m'.Indexed := by
  unfold Indexed
  rw [hindex, size_of_tables htables]
  refine h.imp_left fun ⟨htotal, hexact⟩ => ⟨htotal, fun table id => (hexact table id).trans ?_⟩
  simpa only [map_eq_some_iff] using (congrArg (· = some (some table)) (htables id)).to_iff.symm

theorem Indexed.setTablet (h : m.Indexed) {old : Tablet} (hold : m.tablets[id]? = some old)
    (htable : t.table = old.table) : (m.setTablet id t).Indexed := by
  refine h.of_tables rfl fun id' => ?_
  change (m.tablets.insert id t)[id']?.map Tablet.table = _
  rw [get_insert]
  by_cases hid : id = id'
  · simp [← hid, hold, htable]
  · simp [hid]

theorem Indexed.ensureTabletIndex (h : m.Indexed) : m.ensureTabletIndex.Indexed := by
  unfold Metadata.ensureTabletIndex
  split
  · exact h
  · exact .inl ⟨TabletIndex.total_foldl_add _ _, TabletIndex.exact_build m.tablets⟩

/-- What a scan of the map answers. -/
def scanForTable (tablets : OrdMap TabletId Tablet) (table : TableName) : List (TabletId × Tablet) :=
  tablets.toList.filter fun entry => entry.2.table = some table

theorem mem_scanForTable {tablets : OrdMap TabletId Tablet} {table : TableName} :
    (id, t) ∈ scanForTable tablets table ↔ tablets[id]? = some t ∧ t.table = some table := by
  simp [scanForTable, Std.ExtTreeMap.mem_toList_iff_getElem?_eq_some]

/-- The lookup answers as the scan does. -/
theorem Indexed.tabletsForTable (h : m.Indexed) (table : TableName) :
    m.tabletsForTable table = scanForTable m.tablets table := by
  unfold Metadata.tabletsForTable
  split_ifs with hvalid
  · have hexact := h.exact hvalid
    refine eq_of_ordered ?_ ?_ ?_
    · refine List.Pairwise.filterMap _ ?_ (TabletIndex.ids_ordered table)
      intro a b hab x hx y hy
      simp only [map_eq_some_iff] at hx hy
      obtain ⟨_, -, rfl⟩ := hx
      obtain ⟨_, -, rfl⟩ := hy
      exact hab
    · exact Std.ExtTreeMap.ordered_keys_toList.filter _
    · rintro ⟨id, t⟩
      rw [mem_scanForTable, mem_filterMap]
      constructor
      · rintro ⟨id', hid', heq⟩
        obtain ⟨t', ht', heq⟩ := map_eq_some_iff.mp heq
        cases heq
        obtain ⟨t'', ht'', htable⟩ := (hexact table id).mp ((TabletIndex.mem_ids table id).mp hid')
        rw [ht'] at ht''
        cases ht''
        exact ⟨ht', htable⟩
      · rintro ⟨ht, htable⟩
        exact ⟨id, (TabletIndex.mem_ids table id).mpr ((hexact table id).mpr ⟨t, ht, htable⟩), by rw [ht]; rfl⟩
  · rfl

theorem Indexed.hasTableTablet (h : m.Indexed) (table : TableName) :
    m.hasTableTablet table ↔ ∃ (id : TabletId) (t : Tablet), m.tablets[id]? = some t ∧
    t.table = some table := by
  have hscan : !(m.tabletsForTable table).isEmpty ↔ ∃ (id : TabletId) (t : Tablet), m.tablets[id]? = some t ∧
    t.table = some table := by
    rw [h.tabletsForTable]
    simp only [Bool.not_eq_true', isEmpty_eq_false_iff_exists_mem, Prod.exists, mem_scanForTable]
  unfold Metadata.hasTableTablet
  split_ifs with hvalid
  · simp only [Bool.not_eq_true', isEmpty_eq_false_iff_exists_mem, TabletIndex.mem_ids, h.exact hvalid table]
  · exact hscan

end Metadata

end AnimusDb.Catalog
