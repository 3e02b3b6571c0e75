import AnimusDb.ItemValue
import Mathlib.Data.List.Nodup

/-! The rows of local secondary indexes. A write of an item derives the row writes that take every
index of its table from the old item to the new one. -/

open RustText List

namespace AnimusDb.Items

/-- The attributes that an index row keeps. -/
inductive Projection where
  | all
  | keysOnly
  | include (names : List Text)

structure LsiDef where
  name : Text
  sortAttribute : Text
  projection : Projection

/-- The key attributes of a table. -/
structure TableSchema where
  partitionKey : Text
  sortKey : Option Text

/-- What a write needs to know of its table. -/
structure WriteSchema where
  key : TableSchema
  lsis : List LsiDef
  changeRecordsCarryImages : Bool

/-- The attributes of an item that its row in an index keeps. -/
def projectedItem (item : Item) (base : TableSchema) (lsi : LsiDef) : Item :=
  let keep (extra : List Text) : Item :=
    let names := base.partitionKey :: (base.sortKey.toList ++ lsi.sortAttribute :: extra)
    item.filter fun field => names.contains field.1
  match lsi.projection with
  | .all => item
  | .keysOnly => keep []
  | .include extra => keep extra

/-- The key of an index row, from the bytes of its parts. -/
def lsiKey (pk index alt sk : List UInt8) : List UInt8 :=
  escape pk ++ (escape index ++ (escape alt ++ sk))

def sortBytes (sk : Option AttributeValue) : List UInt8 := sk.elim [] AttributeValue.keyBytes

def lsiRowKey (pk : AttributeValue) (index : Text) (altSort : AttributeValue) (sk : Option AttributeValue) :
    List UInt8 :=
  lsiKey pk.keyBytes (utf8 index) altSort.keyBytes (sortBytes sk)

structure ChangeRecord where
  baseSk : List UInt8
  oldImage : Option Item
  newImage : Option Item
  seeded : Bool
  marker : Bool
  staged : Bool
  ttlExpired : Bool

/-- A row write: the kind and key of the row, and its value or its removal. -/
abbrev KindWrite := (UInt8 × List UInt8) × Option (List UInt8)

structure KindWrites where
  writes : List KindWrite
  changeLog : List UInt8 × List UInt8

/-- How stored items and change records are laid out in bytes. -/
structure RowCodec where
  storedItem : Item → List UInt8
  changeRecord : ChangeRecord → List UInt8

structure Mutation where
  pk : AttributeValue
  sk : Option AttributeValue
  tokenPrefix : List UInt8
  baseValue : List UInt8
  old : Option Item
  new : Option Item
  ttlExpired : Bool
  kindBase : UInt8
  kindLsi : UInt8

variable (codec : RowCodec) (schema : WriteSchema) (m : Mutation)

/-- The value of the index's sort attribute in an item that may be absent. -/
def LsiDef.alt (lsi : LsiDef) (item : Option Item) : Option AttributeValue :=
  item.bind fun i => Fields.get i lsi.sortAttribute

/-- The row writes for one index. -/
def lsiWrites (lsi : LsiDef) : List KindWrite :=
  let oldAlt := lsi.alt m.old
  let newAlt := lsi.alt m.new
  (match oldAlt with
    | some prev =>
      if oldAlt ≠ newAlt then
        [((m.kindLsi, m.tokenPrefix ++ lsiRowKey m.pk lsi.name prev m.sk), none)]
      else []
    | none => []) ++
  match newAlt, m.new with
  | some next, some item =>
    [((m.kindLsi, m.tokenPrefix ++ lsiRowKey m.pk lsi.name next m.sk),
      some (codec.storedItem (projectedItem item schema.key lsi)))]
  | _, _ => []

def deriveKindWrites : KindWrites where
  writes := ((m.kindBase, m.tokenPrefix ++ storageKey m.pk m.sk), some m.baseValue) ::
    schema.lsis.flatMap (lsiWrites codec schema m)
  changeLog := (m.tokenPrefix ++ escape m.pk.keyBytes, codec.changeRecord
    { baseSk := (storageKey m.pk m.sk).drop (escape m.pk.keyBytes).length
      oldImage := if schema.changeRecordsCarryImages then m.old else none
      newImage := if schema.changeRecordsCarryImages then m.new else none
      seeded := false, marker := !schema.changeRecordsCarryImages, staged := false
      ttlExpired := m.ttlExpired })

/-- The rows of a tablet, by kind and key. -/
abbrev RowStore := UInt8 × List UInt8 → Option (List UInt8)

def RowStore.write (store : RowStore) (w : KindWrite) : RowStore := Function.update store w.1 w.2

def RowStore.apply (store : RowStore) (writes : List KindWrite) : RowStore :=
  writes.foldl RowStore.write store

/-- The row that one index derives from an item, if the item has the index's sort attribute. -/
def lsiRow (item : Option Item) (lsi : LsiDef) : List ((UInt8 × List UInt8) × List UInt8) :=
  match lsi.alt item, item with
  | some value, some i =>
    [((m.kindLsi, m.tokenPrefix ++ lsiRowKey m.pk lsi.name value m.sk),
      codec.storedItem (projectedItem i schema.key lsi))]
  | _, _ => []

/-- The rows that the indexes derive from an item that may be absent. -/
def derivedRows (item : Option Item) : List ((UInt8 × List UInt8) × List UInt8) :=
  schema.lsis.flatMap (lsiRow codec schema m item)

/-- The key of a row that some index may have for the mutated base key. -/
def Mutation.rowKey (index alt : List UInt8) : UInt8 × List UInt8 :=
  (m.kindLsi, m.tokenPrefix ++ lsiKey m.pk.keyBytes index alt (sortBytes m.sk))

/-- The index rows of the mutated base key are exactly those derived from the item. -/
def HasRows (store : RowStore) (item : Option Item) : Prop :=
  ∀ index alt, store (m.rowKey index alt) = (derivedRows codec schema m item).lookup (m.rowKey index alt)

variable {α κ ν : Type} [BEq κ] [LawfulBEq κ] {f : α → List (κ × ν)}

theorem lookup_flatMap {l : List α} {k : κ} {a : α} (ha : a ∈ l)
    (honly : ∀ b ∈ l, ∀ p ∈ f b, p.1 = k → b = a) : (l.flatMap f).lookup k = (f a).lookup k := by
  have hmiss (b : α) (hb : b ∈ l) (hne : b ≠ a) : (f b).lookup k = none := by
    rw [lookup_eq_none_iff]
    intro p hp
    rw [bne_iff_ne]
    exact fun heq => hne (honly b hb p hp heq.symm)
  induction l with
  | nil => cases ha
  | cons b l ih =>
    have hmiss' (c : α) (hc : c ∈ l) (hne : c ≠ a) : (f c).lookup k = none :=
      hmiss c (mem_cons_of_mem _ hc) hne
    have honly' : ∀ c ∈ l, ∀ p ∈ f c, p.1 = k → c = a := fun c hc =>
      honly c (mem_cons_of_mem _ hc)
    rw [flatMap_cons, lookup_append]
    by_cases hmem : a ∈ l
    · rw [ih hmem honly' hmiss']
      by_cases hba : b = a
      · rw [hba, Option.or_self]
      · rw [hmiss b mem_cons_self hba, Option.none_or]
    · have hrest : (l.flatMap f).lookup k = none := by
        rw [lookup_eq_none_iff]
        intro p hp
        obtain ⟨c, hc, hp⟩ := mem_flatMap.mp hp
        rw [bne_iff_ne]
        intro heq
        exact hmem (honly' c hc p hp heq.symm ▸ hc)
      rcases mem_cons.mp ha with rfl | ha
      · rw [hrest, Option.or_none]
      · exact absurd ha hmem

theorem lookup_flatMap_none {l : List α} {k : κ} (hnone : ∀ b ∈ l, ∀ p ∈ f b, p.1 ≠ k) :
    (l.flatMap f).lookup k = none := by
  rw [lookup_eq_none_iff]
  intro p hp
  obtain ⟨b, hb, hp⟩ := mem_flatMap.mp hp
  rw [bne_iff_ne]
  exact fun heq => hnone b hb p hp heq.symm

/-- Where no key is written twice, the store holds afterwards what was written, and elsewhere what it
held before. -/
theorem RowStore.apply_eq {writes : List KindWrite} (hnodup : (writes.map Prod.fst).Nodup)
    (store : RowStore) (key : UInt8 × List UInt8) :
    store.apply writes key = (writes.lookup key).getD (store key) := by
  induction writes generalizing store with
  | nil => rfl
  | cons w rest ih =>
    rw [map_cons, nodup_cons] at hnodup
    change RowStore.apply (store.write w) rest key = _
    rw [ih hnodup.2, lookup_cons]
    unfold RowStore.write
    by_cases hkey : key = w.1
    · have hmiss : rest.lookup key = none := by
        rw [lookup_eq_none_iff]
        intro p hp
        rw [bne_iff_ne]
        rintro rfl
        exact hnodup.1 (hkey ▸ mem_map_of_mem hp)
      rw [hmiss, hkey]
      simp
    · rw [Function.update_of_ne hkey, beq_eq_false_iff_ne.mpr hkey]

section Rows

variable {codec schema m}

theorem Mutation.rowKey_inj {index alt index' alt' : List UInt8}
    (h : m.rowKey index alt = m.rowKey index' alt') : index = index' ∧ alt = alt' := by
  unfold Mutation.rowKey lsiKey at h
  rw [Prod.mk.injEq] at h
  have htail := append_cancel_left (append_cancel_left h.2)
  obtain ⟨hindex, halt⟩ := escape_append_inj htail
  exact ⟨hindex, (escape_append_inj halt).1⟩

theorem storageKey_eq (pk : AttributeValue) (sk : Option AttributeValue) :
    storageKey pk sk = escape pk.keyBytes ++ sortBytes sk := rfl

theorem rowKey_eq (index : Text) (value : AttributeValue) :
    (m.kindLsi, m.tokenPrefix ++ lsiRowKey m.pk index value m.sk) = m.rowKey (utf8 index) value.keyBytes := rfl

variable {lsi : LsiDef}

theorem lsiWrites_key {w : KindWrite} (hw : w ∈ lsiWrites codec schema m lsi) :
    ∃ value : AttributeValue, w.1 = m.rowKey (utf8 lsi.name) value.keyBytes := by
  unfold lsiWrites at hw
  dsimp only at hw
  rcases mem_append.mp hw with hw | hw
  · split at hw
    · rename_i prev _
      split at hw
      · exact ⟨prev, congrArg Prod.fst (mem_singleton.mp hw)⟩
      · cases hw
    · cases hw
  · split at hw
    · rename_i next item _ _
      exact ⟨next, congrArg Prod.fst (mem_singleton.mp hw)⟩
    · cases hw

theorem LsiDef.exists_item {item : Option Item} {value : AttributeValue} (h : lsi.alt item = some value) :
    ∃ i, item = some i := by
  cases item with
  | none => cases h
  | some i => exact ⟨i, rfl⟩

/-- What a store holds of one index after the mutation, at the row of any value. -/
theorem lookup_lsiWrites (alt : List UInt8)
    (hkeys : ∀ prev next, lsi.alt m.old = some prev → lsi.alt m.new = some next → prev ≠ next →
      prev.keyBytes ≠ next.keyBytes) :
      ((lsiWrites codec schema m lsi).lookup (m.rowKey (utf8 lsi.name) alt)).getD
        ((lsiRow codec schema m m.old lsi).lookup (m.rowKey (utf8 lsi.name) alt)) =
      (lsiRow codec schema m m.new lsi).lookup (m.rowKey (utf8 lsi.name) alt) := by
  have hkey (value : AttributeValue) : (m.rowKey (utf8 lsi.name) alt ==
      m.rowKey (utf8 lsi.name) value.keyBytes) = decide (alt = value.keyBytes) := by
    rw [Bool.eq_iff_iff, beq_iff_eq, decide_eq_true_iff]
    exact ⟨fun h => (Mutation.rowKey_inj h).2, fun h => by rw [h]⟩
  unfold lsiWrites lsiRow
  dsimp only
  simp only [rowKey_eq]
  cases hold : lsi.alt m.old with
  | none =>
    cases hnew : lsi.alt m.new with
    | none => simp
    | some next =>
      obtain ⟨i, hi⟩ := lsi.exists_item hnew
      rw [hi]
      simp only [nil_append, lookup_cons, hkey, lookup_nil]
      cases decide (alt = next.keyBytes) <;> rfl
  | some prev =>
    obtain ⟨i, hi⟩ := lsi.exists_item hold
    rw [hi]
    cases hnew : lsi.alt m.new with
    | none =>
      simp only [ne_eq, reduceCtorEq, not_false_eq_true, if_true, append_nil, lookup_cons, hkey, lookup_nil]
      cases decide (alt = prev.keyBytes) <;> rfl
    | some next =>
      obtain ⟨j, hj⟩ := lsi.exists_item hnew
      rw [hj]
      by_cases hsame : prev = next
      · subst hsame
        simp only [ne_eq, not_true_eq_false, if_false, nil_append, lookup_cons, hkey, lookup_nil]
        cases decide (alt = prev.keyBytes) <;> rfl
      · have hne : prev.keyBytes ≠ next.keyBytes := hkeys prev next hold hnew hsame
        have hdiff : (some prev : Option AttributeValue) ≠ some next := by
          simpa using hsame
        dsimp only
        rw [if_pos hdiff]
        simp only [singleton_append, lookup_cons, hkey, lookup_nil]
        by_cases hprev : alt = prev.keyBytes
        · have hnext : alt ≠ next.keyBytes := fun h => hne (hprev.symm.trans h)
          simp [hprev, hne]
        · by_cases hnext : alt = next.keyBytes <;> simp [hprev, hnext, hne.symm]

theorem lsiRow_key {item : Option Item} {row : (UInt8 × List UInt8) × List UInt8}
    (hrow : row ∈ lsiRow codec schema m item lsi) :
    ∃ value : AttributeValue, row.1 = m.rowKey (utf8 lsi.name) value.keyBytes := by
  unfold lsiRow at hrow
  split at hrow
  · rw [mem_singleton.mp hrow]
    exact ⟨_, rfl⟩
  · cases hrow

/-- Rows filed by index are looked up in the index that the key names. -/
theorem lookup_by_index {ν : Type} (hnames : (schema.lsis.map LsiDef.name).Nodup)
    {rows : LsiDef → List ((UInt8 × List UInt8) × ν)}
    (hrows : ∀ lsi, ∀ row ∈ rows lsi, ∃ value : AttributeValue,
      row.1 = m.rowKey (utf8 lsi.name) value.keyBytes) (hlsi : lsi ∈ schema.lsis) (alt : List UInt8) :
      (schema.lsis.flatMap rows).lookup (m.rowKey (utf8 lsi.name) alt) =
      (rows lsi).lookup (m.rowKey (utf8 lsi.name) alt) := by
  apply lookup_flatMap hlsi
  intro other hother row hrow hkey
  obtain ⟨value, hvalue⟩ := hrows other row hrow
  exact inj_on_of_nodup_map hnames hother hlsi (utf8_injective (Mutation.rowKey_inj (hvalue.symm.trans hkey)).1)

theorem lookup_no_index {ν : Type} {rows : LsiDef → List ((UInt8 × List UInt8) × ν)} (hrows : ∀ lsi,
      ∀ row ∈ rows lsi, ∃ value : AttributeValue, row.1 = m.rowKey (utf8 lsi.name) value.keyBytes)
    {index : List UInt8} (hindex : ∀ lsi ∈ schema.lsis, utf8 lsi.name ≠ index) (alt : List UInt8) :
    (schema.lsis.flatMap rows).lookup (m.rowKey index alt) = none := by
  apply lookup_flatMap_none
  intro lsi hlsi row hrow hkey
  obtain ⟨value, hvalue⟩ := hrows lsi row hrow
  exact hindex lsi hlsi (Mutation.rowKey_inj (hvalue.symm.trans hkey)).1

variable (schema m) in
/-- Where an index's sort attribute changes from one value to another, the row key changes too. -/
def KeysFollowValues : Prop :=
  ∀ lsi ∈ schema.lsis, ∀ prev next, lsi.alt m.old = some prev → lsi.alt m.new = some next →
    prev ≠ next → prev.keyBytes ≠ next.keyBytes

theorem nodup_lsiWrites : ((lsiWrites codec schema m lsi).map Prod.fst).Nodup ↔ ∀ prev next, lsi.alt m.old =
    some prev → lsi.alt m.new = some next → prev ≠ next → prev.keyBytes ≠ next.keyBytes := by
  unfold lsiWrites
  dsimp only
  simp only [rowKey_eq]
  cases hold : lsi.alt m.old with
  | none => dsimp only; split <;> simp
  | some prev =>
    cases hnew : lsi.alt m.new with
    | none => simp
    | some next =>
      obtain ⟨item, hitem⟩ := lsi.exists_item hnew
      have hrow : m.rowKey (utf8 lsi.name) prev.keyBytes = m.rowKey (utf8 lsi.name) next.keyBytes ↔
          prev.keyBytes = next.keyBytes := ⟨fun h => (Mutation.rowKey_inj h).2, fun h => by rw [h]⟩
      by_cases hsame : prev = next
      · simp [hitem, hsame]
      · simp [hitem, hsame, hrow]

/-- No row is written twice just where the row keys follow the values. -/
theorem nodup_writes (hkinds : m.kindBase ≠ m.kindLsi) (hnames : (schema.lsis.map LsiDef.name).Nodup) :
    ((deriveKindWrites codec schema m).writes.map Prod.fst).Nodup ↔ KeysFollowValues schema m := by
  unfold deriveKindWrites
  rw [map_cons, nodup_cons, map_flatMap, nodup_flatMap]
  refine ⟨fun h lsi hlsi => nodup_lsiWrites.mp (h.2.1 lsi hlsi), fun hkeys => ⟨?_, ?_, ?_⟩⟩
  · intro hmem
    obtain ⟨lsi, -, hmem⟩ := mem_flatMap.mp hmem
    obtain ⟨w, hw, hkey⟩ := mem_map.mp hmem
    obtain ⟨value, hvalue⟩ := lsiWrites_key hw
    exact hkinds (congrArg Prod.fst (hvalue.symm.trans hkey)).symm
  · exact fun lsi hlsi => nodup_lsiWrites.mpr (hkeys lsi hlsi)
  · refine (pairwise_map.mp hnames).imp fun {a b} hne => ?_
    intro key ha hb
    obtain ⟨w, hw, rfl⟩ := mem_map.mp ha
    obtain ⟨w', hw', hkey⟩ := mem_map.mp hb
    obtain ⟨value, hvalue⟩ := lsiWrites_key hw
    obtain ⟨value', hvalue'⟩ := lsiWrites_key hw'
    have hindex := (Mutation.rowKey_inj (hvalue.symm.trans (hkey.symm.trans hvalue'))).1
    exact hne (utf8_injective hindex)

/-- The index rows go from those of the old item to those of the new one. -/
theorem HasRows.apply (hkinds : m.kindBase ≠ m.kindLsi)
    (hnames : (schema.lsis.map LsiDef.name).Nodup) (hkeys : KeysFollowValues schema m)
    {store : RowStore} (hstore : HasRows codec schema m store m.old) :
    HasRows codec schema m (store.apply (deriveKindWrites codec schema m).writes) m.new := by
  intro index alt
  have hbase : m.rowKey index alt ≠ (m.kindBase, m.tokenPrefix ++ storageKey m.pk m.sk) :=
    fun h => hkinds (congrArg Prod.fst h).symm
  rw [RowStore.apply_eq ((nodup_writes hkinds hnames).mpr hkeys), hstore index alt]
  unfold deriveKindWrites derivedRows
  rw [lookup_cons, beq_eq_false_iff_ne.mpr hbase]
  dsimp only
  by_cases hindex : ∃ lsi ∈ schema.lsis, utf8 lsi.name = index
  · obtain ⟨lsi, hlsi, rfl⟩ := hindex
    rw [lookup_by_index hnames (fun _ _ => lsiWrites_key) hlsi, lookup_by_index hnames
      (fun _ _ => lsiRow_key) hlsi, lookup_by_index hnames (fun _ _ => lsiRow_key) hlsi]
    exact lookup_lsiWrites alt (hkeys lsi hlsi)
  · have hnone : ∀ lsi ∈ schema.lsis, utf8 lsi.name ≠ index :=
      fun lsi hlsi h => hindex ⟨lsi, hlsi, h⟩
    rw [lookup_no_index (fun _ _ => lsiWrites_key) hnone, lookup_no_index (fun _ _ => lsiRow_key) hnone,
      lookup_no_index (fun _ _ => lsiRow_key) hnone]
    rfl

end Rows

variable {row : UInt8 × List UInt8}

section Others

/-- A base or index row of another base key, under a token of eight bytes. -/
def OtherRow (row : UInt8 × List UInt8) : Prop :=
  ∃ (token : List UInt8) (pk : AttributeValue) (sk : Option AttributeValue),
    token.length = 8 ∧ storageKey pk sk ≠ storageKey m.pk m.sk ∧
    (row = (m.kindBase, token ++ storageKey pk sk) ∨
        ∃ index alt, row = (m.kindLsi, token ++ lsiKey pk.keyBytes index alt (sortBytes sk)))

variable {m}

theorem OtherRow.ne_base (hkinds : m.kindBase ≠ m.kindLsi) (htoken : m.tokenPrefix.length = 8)
    (hrow : OtherRow m row) : row ≠ (m.kindBase, m.tokenPrefix ++ storageKey m.pk m.sk) := by
  obtain ⟨token, pk, sk, hlength, hne, rfl | ⟨index, alt, rfl⟩⟩ := hrow
  · intro h
    exact hne (append_inj (congrArg Prod.snd h) (hlength.trans htoken.symm)).2
  · exact fun h => hkinds (congrArg Prod.fst h).symm

theorem OtherRow.ne_rowKey (hkinds : m.kindBase ≠ m.kindLsi) (htoken : m.tokenPrefix.length = 8)
    (hrow : OtherRow m row) (index alt : List UInt8) : row ≠ m.rowKey index alt := by
  obtain ⟨token, pk, sk, hlength, hne, rfl | ⟨index', alt', rfl⟩⟩ := hrow
  · exact fun h => hkinds (congrArg Prod.fst h)
  · intro h
    have hkey := (append_inj (congrArg Prod.snd h) (hlength.trans htoken.symm)).2
    obtain ⟨hpk, hrest⟩ := escape_append_inj hkey
    have hsk := (escape_append_inj (escape_append_inj hrest).2).2
    apply hne
    rw [storageKey_eq, storageKey_eq, hpk, hsk]

end Others

/-- No row is written twice, the index rows of the base key become those of the new item and the rows of
other base keys stay, just where the row keys follow the values of the sort attributes. -/
theorem derive_kind_writes_exact (hkinds : m.kindBase ≠ m.kindLsi) (htoken : m.tokenPrefix.length = 8)
    (hnames : (schema.lsis.map LsiDef.name).Nodup) :
    (((deriveKindWrites codec schema m).writes.map Prod.fst).Nodup ∧
      ∀ store, HasRows codec schema m store m.old →
        HasRows codec schema m (store.apply (deriveKindWrites codec schema m).writes) m.new ∧
        ∀ row, OtherRow m row → store.apply (deriveKindWrites codec schema m).writes row = store row) ↔
      KeysFollowValues schema m := by
  refine ⟨fun h => (nodup_writes hkinds hnames).mp h.1, fun hkeys => ?_⟩
  have hnodup := (@nodup_writes codec schema m hkinds hnames).mpr hkeys
  refine ⟨hnodup, fun store hstore => ⟨hstore.apply hkinds hnames hkeys, fun row hrow => ?_⟩⟩
  have hnone : (deriveKindWrites codec schema m).writes.lookup row = none := by
    unfold deriveKindWrites
    rw [lookup_cons, beq_eq_false_iff_ne.mpr (hrow.ne_base hkinds htoken)]
    dsimp only
    apply lookup_flatMap_none
    intro lsi _ w hw hkey
    obtain ⟨value, hvalue⟩ := lsiWrites_key hw
    exact hrow.ne_rowKey hkinds htoken _ _ (hkey.symm.trans hvalue)
  rw [RowStore.apply_eq hnodup, hnone]
  rfl

/-- A table keyed by `pk` with one index, by `age`. -/
def ageSchema : WriteSchema where
  key := ⟨['p', 'k'], none⟩
  lsis := [⟨['b', 'y', 'A', 'g', 'e'], ['a', 'g', 'e'], .all⟩]
  changeRecordsCarryImages := true

def ageItem (age : Text) : Item := [(['a', 'g', 'e'], .N age), (['p', 'k'], .S ['a'])]

/-- An item whose age goes from one number to another. -/
def ageMutation (old new : Text) : Mutation where
  pk := .S ['a']
  sk := none
  tokenPrefix := [1, 2, 3, 4, 5, 6, 7, 8]
  baseValue := []
  old := some (ageItem old)
  new := some (ageItem new)
  ttlExpired := false
  kindBase := 0
  kindLsi := 1

/-- A layout that keeps of an item only how many attributes it has. -/
def countCodec : RowCodec := ⟨fun item => [item.length.toUInt8], fun _ => []⟩

theorem keysFollowValues_age {old new : Text}
    (h : (AttributeValue.N old).keyBytes ≠ (AttributeValue.N new).keyBytes) :
    KeysFollowValues ageSchema (ageMutation old new) := by
  intro lsi hlsi prev next hprev hnext _
  obtain rfl := mem_singleton.mp hlsi
  obtain rfl : .N old = prev := Option.some.inj hprev
  obtain rfl : .N new = next := Option.some.inj hnext
  exact h

theorem derive_kind_writes_exact_birthday :
    ((deriveKindWrites countCodec ageSchema (ageMutation ['1'] ['2'])).writes.map Prod.fst).Nodup ∧
    HasRows countCodec ageSchema (ageMutation ['1'] ['2']) (RowStore.apply (fun key =>
        (derivedRows countCodec ageSchema (ageMutation ['1'] ['2']) (some (ageItem ['1']))).lookup key)
        (deriveKindWrites countCodec ageSchema (ageMutation ['1'] ['2'])).writes) (some (ageItem ['2'])) := by
  have hkeys : KeysFollowValues ageSchema (ageMutation ['1'] ['2']) :=
    keysFollowValues_age (by decide +kernel)
  have h := (derive_kind_writes_exact countCodec ageSchema (ageMutation ['1'] ['2']) (by decide) rfl
    (by decide)).mpr hkeys
  exact ⟨h.1, (h.2 _ fun _ _ => rfl).1⟩

/-- Two accepted spellings of one number: the row is deleted and put by the same list of writes. -/
theorem respelled_row_written_twice : (encodeChecked ['1']).isSome ∧ (encodeChecked ['1', '.', '0']).isSome ∧
    (ageSchema.lsis.map LsiDef.name).Nodup ∧
    ¬ ((deriveKindWrites countCodec ageSchema (ageMutation ['1'] ['1', '.', '0'])).writes.map Prod.fst).Nodup := by
  decide +kernel

end AnimusDb.Items
