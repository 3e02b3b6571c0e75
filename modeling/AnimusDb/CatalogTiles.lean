import AnimusDb.CatalogIds

/-! The tablets of a table tile the key space: each key has exactly one owner among those in service. A
tablet that a restore or an import builds is out of service, and stands alone in its table until it is
activated. -/

open OrderedMaps AnimusDb.Placement List Option
open AnimusDb.Tablet (KeyRange)

namespace AnimusDb.Catalog

variable {range left right : KeyRange} {key : Bytes}

theorem contains_whole (k : Bytes) : KeyRange.whole.contains k = true := by
  have hnot : ¬ k < [] := not_lt_nil k
  simp [KeyRange.whole, KeyRange.contains, hnot]

/-- A key of the range lies in exactly one of the two sides of a split. -/
theorem contains_splitAt (h : range.splitAt key = some (left, right)) (k : Bytes) :
    (range.contains k = true ↔ left.contains k = true ∨ right.contains k = true) ∧
      ¬ (left.contains k = true ∧ right.contains k = true) := by
  obtain ⟨hstart, hstop, rfl, rfl⟩ := Tablet.splitAt_eq_some.mp h
  simp only [Tablet.contains_iff]
  by_cases hk : k < key
  · have hbelow : ∀ e, range.stop = some e → k < e := fun e he => List.lt_trans hk (hstop e he)
    have hnot : ¬ key ≤ k := fun hle => hle hk
    simp [hk, hnot, and_iff_left hbelow]
  · have habove : range.start ≤ k := fun hlt => hk (List.lt_trans hlt hstart)
    simp [hk, habove, show key ≤ k from hk]

variable {table : TableName} {id : TabletId} {tablets : OrdMap TabletId Tablet}

variable {tablets' : OrdMap TabletId Tablet} {k : TabletId} {building : Bool}
  {t old : Tablet}

/-- The table has a tablet with this id and range, out of service or in it. -/
def Holds (tablets : OrdMap TabletId Tablet) (table : TableName) (id : TabletId) (range : KeyRange)
    (building : Bool) : Prop :=
  ∃ t, tablets[id]? = some t ∧ t.table = some table ∧ t.range = range ∧
    (t.state = .building ↔ building = true)

instance : Decidable (Holds tablets table id range building) :=
  decidable_of_iff (tablets[id]?.any fun t =>
    t.table = some table && t.range = range && decide (t.state = .building) == building) <| by
    unfold Holds
    cases tablets[id]? with
    | none => simp
    | some t => cases building <;> simp [and_assoc]

/-- A tablet in service owns the key. -/
def Owns (tablets : OrdMap TabletId Tablet) (table : TableName) (key : Bytes) (id : TabletId) : Prop :=
  ∃ range, Holds tablets table id range false ∧ range.contains key = true

/-- A tablet under construction is the table's only one; those in service have each key once. -/
structure Tiled (tablets : OrdMap TabletId Tablet) (table : TableName) : Prop where
  alone : ∀ id range, Holds tablets table id range true →
    range = .whole ∧ ∀ id' range' building, Holds tablets table id' range' building → id' = id
  serving : (∃ id range, Holds tablets table id range false) → ∀ key, ∃! id, Owns tablets table key id

theorem Tiled.congr (h : Tiled tablets table)
    (hrows : ∀ id range building, Holds tablets' table id range building ↔
    Holds tablets table id range building) : Tiled tablets' table := by
  refine ⟨?_, ?_⟩
  · intro id range hid
    obtain ⟨hwhole, honly⟩ := h.alone id range ((hrows _ _ _).mp hid)
    exact ⟨hwhole, fun id' range' building hid' => honly id' range' building ((hrows _ _ _).mp hid')⟩
  · rintro ⟨id, range, hid⟩ key
    have hunique := h.serving ⟨id, range, (hrows _ _ _).mp hid⟩ key
    simpa only [Owns, hrows] using hunique

theorem tiled_of_none (hnone : ∀ id range building, ¬ Holds tablets table id range building) :
    Tiled tablets table :=
  ⟨fun id range h => absurd h (hnone id range true), fun ⟨id, range, h⟩ => absurd h (hnone id range false)⟩

theorem tiled_of_single (id : TabletId) (building : Bool) (hsingle :
    ∀ id' range' b, Holds tablets table id' range' b ↔ id' = id ∧ range' = .whole ∧ b = building) :
    Tiled tablets table := by
  refine ⟨?_, ?_⟩
  · intro id' range' hid'
    obtain ⟨rfl, rfl, -⟩ := (hsingle _ _ _).mp hid'
    exact ⟨rfl, fun id'' range'' b h => ((hsingle _ _ _).mp h).1⟩
  · rintro ⟨id', range', hid'⟩ key
    obtain ⟨-, -, hserving⟩ := (hsingle _ _ _).mp hid'
    refine ⟨id, ⟨.whole, (hsingle _ _ _).mpr ⟨rfl, rfl, hserving⟩, contains_whole key⟩, ?_⟩
    rintro id'' ⟨range'', hid'', -⟩
    exact ((hsingle _ _ _).mp hid'').1

theorem holds_insert : Holds (tablets.insert k t) table id range building ↔
    (k = id ∧ t.table = some table ∧ t.range = range ∧ (t.state = .building ↔ building = true)) ∨
      (k ≠ id ∧ Holds tablets table id range building) := by
  simp only [Holds, get_insert]
  by_cases hk : k = id
  · simp [hk]
  · simp [hk]

/-- A row of another table, put where no row of this table was. -/
theorem holds_insert_other (ht : t.table ≠ some table)
    (hold : ∀ old, tablets[k]? = some old → old.table ≠ some table) :
    Holds (tablets.insert k t) table id range building ↔ Holds tablets table id range building := by
  rw [holds_insert]
  constructor
  · rintro (⟨-, htable, -⟩ | ⟨-, h⟩)
    · exact absurd htable ht
    · exact h
  · intro h
    refine .inr ⟨?_, h⟩
    rintro rfl
    obtain ⟨old, hrow, htable, -⟩ := h
    exact hold old hrow htable

/-- A row replaced by one of the same table and range that is in service if the old one was. -/
theorem holds_set (hold : tablets[k]? = some old) (htable : t.table = old.table)
    (hrange : t.range = old.range) (hstate : t.state = .building ↔ old.state = .building) :
    Holds (tablets.insert k t) table id range building ↔ Holds tablets table id range building := by
  rw [holds_insert]
  by_cases hk : k = id
  · subst hk
    simp [Holds, hold, htable, hrange, hstate]
  · simp [hk]

namespace Metadata

variable {m m' : Metadata} {c : MetaCommand}

/-- Every table is tiled, and each split reserves two ids. -/
structure Mapped (m : Metadata) : Prop where
  indexed : m.Indexed
  tiled : ∀ table, Tiled m.tablets table
  apart : ∀ (parent : TabletId) (source : Tablet) (intent : InPlaceSplitIntent), m.tablets[parent]? =
    some source → source.inplaceSplit = some intent → intent.left.id ≠ intent.right.id

/-- A created tablet has the whole range. -/
def CreatesWhole (c : MetaCommand) : Prop :=
  ∀ tablet table range replicas, c = .createTablet tablet table range replicas → range = .whole

/-- A restore or an import is begun only for a table without tablets. -/
def FreshTarget (m : Metadata) (c : MetaCommand) : Prop :=
  ∀ table tablet, c.target = some (table, tablet) → ∀ (id : TabletId) (t : Tablet), m.tablets[id]? = some t →
    t.table ≠ some table

theorem mapped_default : Mapped {} := by
  refine ⟨indexed_default, fun table => tiled_of_none ?_, ?_⟩
  · rintro id range building ⟨t, ht, -⟩
    simp at ht
  · intro parent source intent hsource
    simp at hsource

theorem tiled_insert_first (h : Tiled tablets table) (hnew : tablets[id]? = none) (hrange : t.range = .whole)
    (hfirst : t.table = some table → ∀ (id' : TabletId) (t' : Tablet), tablets[id']? = some t' →
    t'.table ≠ some table) : Tiled (tablets.insert id t) table := by
  by_cases htable : t.table = some table
  · refine tiled_of_single id (decide (t.state = .building)) fun id' range' b => ?_
    have hnone : ¬ Holds tablets table id' range' b := by
      rintro ⟨t', ht', htable', -⟩
      exact hfirst htable id' t' ht' htable'
    rw [holds_insert]
    simp only [hnone, and_false, or_false, htable, hrange, true_and]
    constructor
    · rintro ⟨rfl, rfl, hb⟩
      exact ⟨rfl, rfl, by cases b <;> simp_all⟩
    · rintro ⟨rfl, rfl, rfl⟩
      simp
  · exact h.congr fun _ _ _ => holds_insert_other htable fun old hold => by simp [hnew] at hold

/-- The table's only tablet enters service. -/
theorem tiled_activate {old : Tablet} (h : Tiled tablets table) (hold : tablets[id]? = some old)
    (hbuilding : old.state = .building) (htable : t.table = old.table) (hrange : t.range = old.range)
    (hstate : t.state ≠ .building) : Tiled (tablets.insert id t) table := by
  by_cases hown : old.table = some table
  · obtain ⟨hwhole, honly⟩ := h.alone id old.range ⟨old, hold, hown, rfl, by simp [hbuilding]⟩
    refine tiled_of_single id false fun id' range' b => ?_
    rw [holds_insert]
    constructor
    · rintro (⟨rfl, -, hr, hb⟩ | ⟨hne, hholds⟩)
      · exact ⟨rfl, by rw [← hr, hrange, hwhole], by simpa [hstate] using hb⟩
      · exact absurd (honly id' range' b hholds).symm hne
    · rintro ⟨rfl, rfl, rfl⟩
      exact .inl ⟨rfl, htable.trans hown, hrange.trans hwhole, by simp [hstate]⟩
  · refine h.congr fun _ _ _ => holds_insert_other (by rwa [htable]) fun old' hold' => ?_
    rw [hold] at hold'
    cases hold'
    exact hown

/-- A tablet in service is replaced by two with the sides of its range. -/
theorem tiled_cutover {source left right : Tablet} {parent l r : TabletId} {key : Bytes} (h : Tiled tablets table)
    (hsource : tablets[parent]? = some source) (hserving : source.state ≠ .building)
    (hl : tablets[l]? = none) (hr : tablets[r]? = none) (hlr : l ≠ r)
    (hsplit : source.range.splitAt key = some (left.range, right.range))
    (hleft : left.table = source.table ∧ left.state ≠ .building)
      (hright : right.table = source.table ∧ right.state ≠ .building) :
    Tiled (((tablets.insert l left).insert r right).erase parent) table := by
  have hrows (id' range' b) : Holds (((tablets.insert l left).insert r right).erase parent) table id' range' b ↔
      (source.table = some table ∧ b = false ∧ (id' = l ∧ range' = left.range ∨ id' = r ∧
        range' = right.range)) ∨ (id' ≠ parent ∧ Holds tablets table id' range' b) := by
    simp only [Holds, get_erase, get_insert]
    grind
  by_cases hown : source.table = some table
  · have hparent : Holds tablets table parent source.range false :=
      ⟨source, hsource, hown, rfl, by simp [hserving]⟩
    have hrange : ∀ range' b, Holds tablets table parent range' b → range' = source.range ∧ b = false := by
      rintro range' b ⟨t, ht, -, rfl, hb⟩
      cases hsource.symm.trans ht
      exact ⟨rfl, by simpa [hserving] using hb⟩
    refine ⟨fun id' range' hid' => ?_, fun _ k => ?_⟩
    · -- no tablet of this table is under construction: it would be the parent
      rcases (hrows _ _ _).mp hid' with ⟨-, hb, -⟩ | ⟨hne, hholds⟩
      · cases hb
      · exact absurd ((h.alone id' range' hholds).2 parent source.range false hparent).symm hne
    · obtain ⟨owner, ⟨range', hholds, hcontains⟩, hunique⟩ := h.serving ⟨parent, source.range, hparent⟩ k
      obtain ⟨hcover, hdisjoint⟩ := contains_splitAt hsplit k
      have honly : ∀ id' range', Holds tablets table id' range' false → range'.contains k = true → id' = owner :=
        fun id' range' hid' hk => hunique id' ⟨range', hid', hk⟩
      simp only [Owns, hrows, hown, true_and]
      by_cases hin : source.range.contains k = true
      · obtain rfl := honly parent source.range hparent hin
        rcases hcover.mp hin with hk | hk
        · exact ⟨l, ⟨left.range, .inl (.inl ⟨rfl, rfl⟩), hk⟩, by grind⟩
        · exact ⟨r, ⟨right.range, .inl (.inr ⟨rfl, rfl⟩), hk⟩, by grind⟩
      · refine ⟨owner, ⟨range', .inr ⟨?_, hholds⟩, hcontains⟩, by grind⟩
        rintro rfl
        exact hin ((hrange range' false hholds).1 ▸ hcontains)
  · -- the three rows are of another table
    refine h.congr fun id' range' b => ?_
    simp only [hrows, hown, false_and, false_or, and_iff_right_iff_imp]
    rintro ⟨t, ht, htable, -⟩ rfl
    cases hsource.symm.trans ht
    exact hown htable

/-- Intents stay apart when a row without one, or with the old one, is put in. -/
theorem apart_insert {k : TabletId}
    (h : ∀ (parent : TabletId) (source : Tablet) (intent : InPlaceSplitIntent),
      tablets[parent]? = some source → source.inplaceSplit = some intent → intent.left.id ≠ intent.right.id)
    (ht : ∀ intent, t.inplaceSplit = some intent → intent.left.id ≠ intent.right.id)
    (parent : TabletId) (source : Tablet) (intent : InPlaceSplitIntent)
    (hsource : (tablets.insert k t)[parent]? = some source) (hintent : source.inplaceSplit = some intent) :
    intent.left.id ≠ intent.right.id := by
  rw [get_insert] at hsource
  split_ifs at hsource with hk
  · cases hsource
    exact ht intent hintent
  · exact h parent source intent hsource hintent

theorem Mapped.insert {k : TabletId} (h : m.Mapped) (hindexed : m'.Indexed)
    (htablets : m'.tablets = m.tablets.insert k t) (htiled : ∀ table, Tiled (m.tablets.insert k t) table)
    (ht : ∀ intent, t.inplaceSplit = some intent → intent.left.id ≠ intent.right.id) : m'.Mapped := by
  refine ⟨hindexed, ?_, ?_⟩ <;> rw [htablets]
  · exact htiled
  · exact apart_insert h.apart ht

theorem Mapped.step (h : m.Mapped) (hwhole : CreatesWhole c) (hfresh : m.FreshTarget c)
    (hstep : TabletStep m c m') : m'.Mapped := by
  have hindexed := h.indexed.step hstep
  cases hstep with
  | same hsame =>
    refine ⟨hindexed, ?_, ?_⟩ <;> rw [hsame.tablets]
    · exact h.tiled
    · exact h.apart
  | create tablet table range replicas hnew hnone _ hsame =>
    refine h.insert hindexed hsame.tablets (fun table' => ?_) fun _ hi => by cases hi
    refine tiled_insert_first (h.tiled table') hnew (hwhole tablet table range replicas rfl) ?_
    exact fun htable id t ht htable' =>
      hnone table' htable ((h.indexed.hasTableTablet table').mpr ⟨id, t, ht, htable'⟩)
  | build tablet table replicas hc hnew _ hsame =>
    refine h.insert hindexed hsame.tablets (fun table' => ?_) fun _ hi => by cases hi
    refine tiled_insert_first (h.tiled table') hnew rfl fun htable => ?_
    cases htable
    exact hfresh table tablet hc
  | update id old t hold htable hrange hstate hintent hsame =>
    refine h.insert hindexed hsame.tablets (fun table' => ?_) fun intent hi =>
      h.apart id old intent hold (hintent ▸ hi)
    exact (h.tiled table').congr fun _ _ _ => holds_set hold htable hrange (by rw [hstate])
  | activate id old hold hbuilding hsame =>
    refine h.insert hindexed hsame.tablets (fun table' => ?_) fun intent hi => h.apart id old intent hold hi
    exact tiled_activate (h.tiled table') hold hbuilding rfl rfl (by simp)
  | split parent epoch source intent hsource hactive _ hdistinct _ hsame =>
    refine h.insert hindexed hsame.tablets (fun table' => ?_) fun _ hi => by cases hi; exact hdistinct
    exact (h.tiled table').congr fun _ _ _ => holds_set hsource rfl rfl (by simp [hactive])
  | cutover parent epoch wallMs source intent left right cut hsource hsplitting hintent hranges htable hl hr
      hsame =>
    refine ⟨hindexed, fun table' => ?_, ?_⟩ <;> rw [hsame.tablets]
    · exact tiled_cutover (h.tiled table') hsource (by simp [hsplitting]) hl hr
        (h.apart parent source intent hsource hintent) hranges ⟨htable, by simp⟩ ⟨htable, by simp⟩
    · intro parent' source' intent' hsource' hintent'
      rw [removeTablet_tablets, get_erase] at hsource'
      split_ifs at hsource'
      refine apart_insert (apart_insert h.apart fun _ hi => ?_)
        (fun _ hi => ?_) parent' source' intent' hsource' hintent'
      · cases hi
      · cases hi
  | drop table hsame =>
    have hkept : ∀ (id : TabletId) (t : Tablet), m'.tablets[id]? = some t ↔ m.tablets[id]? = some t ∧
      t.table ≠ some table := by
      intro id t
      rw [hsame.tablets, h.indexed.dropTable_get, filter_eq_some_iff]
      simp
    refine ⟨hindexed, fun table' => ?_, fun parent source intent hsource => ?_⟩
    · by_cases heq : table' = table
      · subst heq
        refine tiled_of_none ?_
        rintro id range building ⟨t, ht, htable, -⟩
        exact ((hkept id t).mp ht).2 htable
      · refine (h.tiled table').congr fun id range building => ?_
        simp only [Holds, hkept]
        grind
    · exact h.apart parent source intent ((hkept parent source).mp hsource).1

theorem Mapped.apply (h : m.Mapped) (hwhole : CreatesWhole c) (hfresh : m.FreshTarget c) :
    (m.apply c).2.Mapped := by
  have hprepared : (m.prepared c).Mapped :=
    ⟨h.indexed.prepared c, by simpa using h.tiled, by simpa using h.apart⟩
  exact hprepared.step hwhole (by simpa [FreshTarget] using hfresh) (m.apply_tabletStep c)

/-- Created tablets have the whole range, all along the run. -/
def RunsWhole (commands : List MetaCommand) : Prop := ∀ c ∈ commands, CreatesWhole c

/-- No restore or import of the run is begun for a table that has a tablet. -/
def FreshTargets : Metadata → List MetaCommand → Prop
  | _, [] => True
  | m, c :: rest => m.FreshTarget c ∧ FreshTargets (m.apply c).2 rest

theorem Mapped.run (commands : List MetaCommand) (h : m.Mapped) (hwhole : RunsWhole commands)
    (hfresh : m.FreshTargets commands) : (m.run commands).Mapped := by
  induction commands generalizing m with
  | nil => exact h
  | cons c rest ih =>
    exact ih (h.apply (hwhole c mem_cons_self) hfresh.1) (fun d hd => hwhole d (mem_cons_of_mem c hd)) hfresh.2

/-- **The tablet map tiles the key space.** In every run whose created tablets have the whole range, and in
which no restore or import is begun for a table that has a tablet, each key of a table with a tablet in
service has exactly one owner. -/
theorem tablets_tile_table (commands : List MetaCommand) (hwhole : RunsWhole commands)
    (hfresh : FreshTargets {} commands) (table : TableName)
    (hserving : ∃ id range, Holds (run {} commands).tablets table id range false) (key : Bytes) :
    ∃! id, Owns (run {} commands).tablets table key id :=
  ((mapped_default.run commands hwhole hfresh).tiled table).serving hserving key

/-- A table is restored from a backup, and then split. -/
def restoreHistory : List MetaCommand :=
  [.beginRestore "r" "b" "s" "t" 1 ["a"] [] none, .completeRestore "r", .beginSplitInPlace 1 2 [5] ⟨2, ["a"]⟩
    ⟨3, ["a"]⟩, .cutoverSplit 1 3 0]

theorem tablets_tile_table_restored : RunsWhole restoreHistory ∧ FreshTargets {} restoreHistory ∧
      Holds (run {} restoreHistory).tablets "t" 3 ⟨[5], none⟩ false ∧
      ∃! id, Owns (run {} restoreHistory).tablets "t" [7] id := by
  have hwhole : RunsWhole restoreHistory := by
    intro c hc tablet table range replicas heq
    subst heq
    simp [restoreHistory] at hc
  have hfresh : FreshTargets {} restoreHistory := by
    refine ⟨?_, ?_, ?_, ?_, trivial⟩
    · intro table tablet _ id t ht
      simp at ht
    all_goals
      intro table tablet htarget
      cases htarget
  have hholds : Holds (run {} restoreHistory).tablets "t" 3 ⟨[5], none⟩ false := by decide +kernel
  exact ⟨hwhole, hfresh, hholds, tablets_tile_table restoreHistory hwhole hfresh "t" ⟨3, _, hholds⟩ [7]⟩

/-- A restore has begun and is not complete. -/
def restoreBegun : List MetaCommand := [.beginRestore "r" "b" "s" "t" 1 ["a"] [] none]

/-- A restore is begun for a table that is in service. -/
def restoreOver : List MetaCommand :=
  [.createTablet 1 (some "t") .whole ["a"], .beginRestore "r" "b" "s" "t" 2 ["a"] [] none, .completeRestore "r"]

/-- During a restore a table's keys have no owner; after a restore into a table in service they have two. -/
theorem tablets_not_tiled_by_restores :
    (RunsWhole restoreBegun ∧ Holds (run {} restoreBegun).tablets "t" 1 .whole true ∧
      ∀ key id, ¬ Owns (run {} restoreBegun).tablets "t" key id) ∧
    (RunsWhole restoreOver ∧ ∀ key, Owns (run {} restoreOver).tablets "t" key 1 ∧
      Owns (run {} restoreOver).tablets "t" key 2) := by
  refine ⟨⟨?_, by decide +kernel, ?_⟩, ?_, fun key => ⟨?_, ?_⟩⟩
  · intro c hc tablet table range replicas heq
    subst heq
    simp [restoreBegun] at hc
  · rintro key id ⟨range, ⟨t, ht, -, -, hstate⟩, -⟩
    have hall : ∀ entry ∈ (run {} restoreBegun).tablets.toList, entry.2.state = .building := by decide +kernel
    have hbuilding := hall (id, t) (Std.ExtTreeMap.mem_toList_iff_getElem?_eq_some.mpr ht)
    exact Bool.false_ne_true (hstate.mp hbuilding)
  · intro c hc tablet table range replicas heq
    subst heq
    simp only [restoreOver, mem_cons, not_mem_nil, or_false, reduceCtorEq,
      MetaCommand.createTablet.injEq] at hc
    exact hc.2.2.1
  · exact ⟨.whole, by decide +kernel, contains_whole key⟩
  · exact ⟨.whole, by decide +kernel, contains_whole key⟩

end Metadata

end AnimusDb.Catalog
