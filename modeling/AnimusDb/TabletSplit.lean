import AnimusDb.CatalogState

/-! Where a tablet is split: between two tokens, so that no partition is cut, and with room for the rows of
consumers. -/

open AnimusDb.Items List RustText
open ByteCodec (be)

namespace AnimusDb.Tablet

/-- The tablet's own row for a consumer; `none` where the code panics. -/
def cursorKey (rangeStart : List UInt8) (consumer : Text) : Option (List UInt8) :=
  if rangeStart.length < 2 ^ 16 then
    some (rangeStart ++ (0x00 :: 0x03 :: (utf8 consumer ++ be 2 rangeStart.length)))
  else none

/-- The rows of a partition that a tablet keeps together. -/
inductive OfPartition (token : List UInt8) : List UInt8 → Prop
  | base (pk sk) : OfPartition token (token ++ storageKey pk sk)
  | lsi (pk index alt sk) : OfPartition token (token ++ lsiRowKey pk index alt sk)
  | record {id key} : recordKey token id = some key → OfPartition token key
  | marker {base key} : base.take tokenBytes = token → resolvedMarkerKey base = some key → OfPartition token key

theorem OfPartition.led {token key : List UInt8} (h : OfPartition token key) :
    ∃ rest, key = token ++ rest := by
  cases h with
  | base | lsi => exact ⟨_, rfl⟩
  | record h => exact ⟨_, (recordKey_eq_some.mp h).2⟩
  | marker htoken h => exact ⟨_, htoken ▸ (resolvedMarkerKey_eq_some.mp h).2⟩

theorem length_incremented (a : List UInt8) : (incremented a).1.length = a.length := by
  fun_induction incremented a <;> simp_all

/-- The next string is the least one above among those of its length. -/
theorem incremented_spec {a b : List UInt8} (hlen : b.length = a.length) :
    if (incremented a).2 then ¬ a < b ∧ ¬ b < (incremented a).1
    else a < (incremented a).1 ∧ (a < b → ¬ b < (incremented a).1) := by
  induction a generalizing b with
  | nil =>
    obtain rfl := length_eq_zero_iff.mp hlen
    simp [incremented]
  | cons x xs ih =>
    obtain ⟨y, ys, rfl⟩ := exists_cons_of_length_eq_add_one hlen
    have htail := ih (Nat.succ.inj hlen)
    have hnat : x.toNat < 256 := x.toNat_lt
    have hnat' : y.toNat < 256 := y.toNat_lt
    unfold incremented
    split <;> rename_i hnext <;>
      simp only [hnext, cons_lt_cons_iff, UInt8.lt_iff_toNat_lt, ← UInt8.toNat_inj, UInt8.toNat_add] at htail ⊢
    · simp at htail ⊢
      grind
    · grind

variable {range : KeyRange} {key splitKey boundary : List UInt8} {streamed : Bool}

theorem isSome_splitAt : (range.splitAt key).isSome ↔ range.start < key ∧ ∀ e ∈ range.stop, key < e := by
  simp [Option.isSome_iff_exists, splitAt_eq_some]

/-- A key follows another with more bytes, unless these run ahead of it. -/
theorem append_lt_of_lt {a b x : List UInt8} (h : a < b) (hx : ∀ rest, b = a ++ rest → x < rest) :
    a ++ x < b := by
  induction a generalizing b with
  | nil => exact hx b rfl
  | cons c a ih =>
    cases b with
    | nil => simp at h
    | cons d b =>
      rw [cons_append, cons_lt_cons_iff]
      refine (cons_lt_cons_iff.mp h).imp_right ?_
      rintro ⟨rfl, htail⟩
      exact ⟨rfl, ih htail fun rest hrest => hx rest (by rw [hrest]; rfl)⟩

/-- A range holds its own cursor keys, unless its end is its start with bytes that come before theirs. -/
theorem contains_cursorKey (hlen : range.start.length < 2 ^ 16) (hrange : ∀ e ∈ range.stop, range.start < e)
    (hends : ∀ rest, range.stop = some (range.start ++ rest) → ¬ rest < [0x00, 0x04]) (consumer : Text) :
    ∃ cursor, cursorKey range.start consumer = some cursor ∧ range.contains cursor := by
  refine ⟨_, if_pos hlen, ?_⟩
  refine contains_iff.mpr ⟨IsPrefix.le (prefix_append _ _), ?_⟩
  intro e he
  refine append_lt_of_lt (hrange e he) fun rest hrest => ?_
  by_contra hge
  exact hends rest (hrest ▸ he) (List.lt_of_le_of_lt hge (by simp [cons_lt_cons_iff]))

theorem alignSplitKey_viable (h : alignSplitKey range streamed splitKey = (key, true)) :
    key.length ≤ tokenBytes ∧ (range.splitAt key).isSome := by
  have hdown : (splitKey.take tokenBytes).length ≤ tokenBytes := by simp
  have hup := length_incremented (splitKey.take tokenBytes)
  simp only [alignSplitKey] at h
  generalize splitKey.take tokenBytes = down at *
  grind

/-- A range that holds the proposed key and is not split has no token boundary inside. -/
theorem alignSplitKey_refused (h : (alignSplitKey range false splitKey).2 = false) (hin : range.contains splitKey)
    (hlen : tokenBytes ≤ splitKey.length) (hboundary : boundary.length = tokenBytes) :
      range.splitAt boundary = none := by
  have hdown : (splitKey.take tokenBytes).length = tokenBytes := by simp [hlen]
  have hup := length_incremented (splitKey.take tokenBytes)
  have hle := IsPrefix.le ( take_prefix tokenBytes splitKey)
  have hspec := incremented_spec (hboundary.trans hdown.symm)
  have hbelow := append_lt_iff hup.le (splitKey.drop tokenBytes)
  rw [take_append_drop] at hbelow
  simp only [alignSplitKey] at h
  generalize splitKey.take tokenBytes = down at *
  obtain ⟨hstart, hstop⟩ := contains_iff.mp hin
  by_contra hsome
  obtain ⟨hlow, hhigh⟩ := isSome_splitAt.mp (Option.isSome_iff_ne_none.mpr hsome)
  cases hnext : incremented down with
  | mk up carry =>
    simp only [hnext] at h hspec hbelow
    have hlt : down < boundary := by
      refine List.lt_of_le_of_lt (fun hlt => ?_) hlow
      rw [if_pos (isSome_splitAt.mpr ⟨hlt, fun e he => List.lt_of_le_of_lt hle (hstop e he)⟩)] at h
      cases h
    cases carry with
    | true => exact hspec.1 hlt
    | false =>
      -- the next boundary is above the proposed key and at most this one
      have hside : (range.splitAt up).isSome := by
        refine isSome_splitAt.mpr ⟨List.lt_of_le_of_lt hstart (hbelow.mpr hspec.1), fun e he => ?_⟩
        exact List.lt_of_le_of_lt (hspec.2 hlt) (hhigh e he)
      simp [hdown, hside, apply_ite Prod.snd] at h

end AnimusDb.Tablet

namespace AnimusDb.Catalog.Metadata

open AnimusDb.Tablet

/-- Round a split key of a tablet to a token boundary inside its range. -/
def alignSplitKey (m : Metadata) (tablet : TabletId) (splitKey : List UInt8) : List UInt8 × Bool :=
  match m.tablets[tablet]? with
  | none => (splitKey, false)
  | some t => Tablet.alignSplitKey t.range (t.table.any fun table => (m.tableStream table).isSome) splitKey

/-- **Splits fall between partitions.** A half holds its own cursor keys unless its end is its start with
bytes that come before theirs. No boundary is missed for a proposed key of the range, with a whole token, on
a table without a stream. -/
theorem split_between_partitions (m : Metadata) (tablet : TabletId) (splitKey : List UInt8) :
    (∀ key, m.alignSplitKey tablet splitKey = (key, true) → ∃ t, m.tablets[tablet]? = some t ∧ ∃ left right,
      t.range.splitAt key = some (left, right) ∧ t.range.start < key ∧ (∀ e ∈ t.range.stop, key < e) ∧
      (∀ token k k', token.length = tokenBytes → OfPartition token k → OfPartition token k' →
        (k < key ↔ k' < key)) ∧ ∀ half, half = left ∨ half = right → half.start.length < 2 ^ 16 →
        (∀ rest, half.stop = some (half.start ++ rest) → ¬ rest < [0x00, 0x04]) →
        ∀ consumer, ∃ cursor, cursorKey half.start consumer = some cursor ∧ half.contains cursor) ∧
    ∀ t, m.tablets[tablet]? = some t → (∀ table ∈ t.table, m.tableStream table = none) →
      t.range.contains splitKey →
      tokenBytes ≤ splitKey.length → (m.alignSplitKey tablet splitKey).2 = false →
      ∀ boundary, boundary.length = tokenBytes → t.range.splitAt boundary = none := by
  refine ⟨fun key h => ?_, fun t ht hstream hin hlen h boundary hboundary => ?_⟩
  · unfold alignSplitKey at h
    split at h
    · cases h
    · rename_i t ht
      obtain ⟨hlen, hsome⟩ := alignSplitKey_viable h
      obtain ⟨⟨left, right⟩, hsplit⟩ := Option.isSome_iff_exists.mp hsome
      obtain ⟨hstart, hstop, rfl, rfl⟩ := splitAt_eq_some.mp hsplit
      refine ⟨t, ht, _, _, hsplit, hstart, hstop, fun token k k' htoken hk hk' => ?_, ?_⟩
      · obtain ⟨rest, rfl⟩ := hk.led
        obtain ⟨rest', rfl⟩ := hk'.led
        rw [append_lt_iff (htoken ▸ hlen), append_lt_iff (htoken ▸ hlen)]
      · rintro half (rfl | rfl) hwidth hends
        · exact contains_cursorKey hwidth (by rintro _ ⟨⟩; exact hstart) hends
        · exact contains_cursorKey hwidth hstop hends
  · have hplain : (t.table.any fun table => (m.tableStream table).isSome) = false := by
      rw [Option.any_eq_false]
      intro table htable
      simp [hstream table htable]
    unfold alignSplitKey at h
    simp only [ht, hplain] at h
    exact alignSplitKey_refused h hin hlen hboundary

/-- The left half of the first tablet of a table misses its cursor keys, and a proposed key without a token
is refused. -/
theorem split_leaves_cursor_outside : let m := ({} : Metadata).insertTablet 1 (.withTable 1 none .whole [])
    m.alignSplitKey 1 [0, 0, 0, 0, 0, 0, 0, 1] = ([0, 0, 0, 0, 0, 0, 0, 1], true) ∧
    (∃ left right cursor, KeyRange.whole.splitAt [0, 0, 0, 0, 0, 0, 0, 1] = some (left, right) ∧
      cursorKey left.start ['c'] = some cursor ∧ left.contains cursor = false) ∧
    (m.alignSplitKey 1 []).2 = false ∧ (KeyRange.whole.splitAt [0, 0, 0, 0, 0, 0, 0, 1]).isSome := by
  refine ⟨by decide +kernel, ⟨_, _, _, rfl, rfl, by decide +kernel⟩, by decide +kernel, by decide +kernel⟩

end AnimusDb.Catalog.Metadata
