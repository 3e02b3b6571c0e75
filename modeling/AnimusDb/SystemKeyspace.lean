import AnimusDb.CatalogRows
import AnimusDb.TabletCommand

/-! The system keyspace as a range of keys: the bounds it is scanned with, and the keys that lie between them. -/

open AnimusDb.Items
open AnimusDb.Tablet (physical allKinds)
open List Option

namespace AnimusDb.Catalog

open Metadata (reservedNamespace)

variable {start stop bytes v x : Bytes}

/-- The loop of `prefix_successor`, over the bytes from the last to the first. -/
def successorLoop : Bytes → Option Bytes
  | [] => none
  | last :: out => if last = 0xFF then successorLoop out else some ((last + 1) :: out).reverse

def prefixSuccessor (start : Bytes) : Option Bytes := successorLoop start.reverse

theorem prefixSuccessor_concat (front : Bytes) (last : UInt8) : prefixSuccessor (front ++ [last]) =
    if last = 0xFF then prefixSuccessor front else some (front ++ [last + 1]) := by
  simp [prefixSuccessor, successorLoop]

theorem prefixSuccessor_of_rangeEnd (h : rangeEnd start = some stop) : prefixSuccessor start = some stop := by
  cases start using reverseRecOn with
  | nil => cases h
  | append_singleton front last =>
    obtain ⟨hlast, rfl⟩ : last ≠ 0xFF ∧ front ++ [last + 1] = stop := by simpa [rangeEnd] using h
    rw [prefixSuccessor_concat, if_neg hlast]

theorem lt_prefixSuccessor (hstop : prefixSuccessor start = some stop) (hx : start <+: x) : x < stop := by
  induction start using reverseRecOn with
  | nil => cases hstop
  | append_singleton front last ih =>
    rw [prefixSuccessor_concat] at hstop
    split_ifs at hstop with hlast
    · exact ih hstop ((prefix_append front [last]).trans hx)
    · cases hstop
      exact ((between_snoc last hlast front x).mpr hx).2

theorem lt_replicate {n : Nat} (h : v.length < n) : v < replicate n 0xFF := by
  induction v generalizing n with
  | nil =>
    obtain ⟨n, rfl⟩ := Nat.exists_eq_succ_of_ne_zero h.ne'
    exact nil_lt_cons _ _
  | cons b v ih =>
    obtain ⟨n, rfl⟩ := Nat.exists_eq_succ_of_ne_zero (Nat.ne_zero_of_lt h)
    rw [replicate_succ, cons_lt_cons_iff]
    rcases Nat.lt_or_eq_of_le (Nat.le_of_lt_succ b.toNat_lt) with hb | hb
    · exact .inl (UInt8.lt_iff_toNat_lt.mpr hb)
    · exact .inr ⟨UInt8.toNat_inj.mp hb, ih (Nat.lt_of_succ_lt_succ h)⟩

/-- Below the successor, and below every string where there is none, there is room for an extension: the
loop's string followed by enough `0xFF` bytes. -/
theorem lt_append_replicate {n : Nat} (hn : v.length < n) (hv : ∀ stop, prefixSuccessor start = some stop →
    v < stop) : v < start ++ replicate n 0xFF := by
  induction start using reverseRecOn generalizing n with
  | nil => exact lt_replicate hn
  | append_singleton front last ih =>
    rw [prefixSuccessor_concat] at hv
    split_ifs at hv with hlast
    · rw [append_assoc, hlast, singleton_append, ← replicate_succ]
      exact ih (Nat.lt_succ_of_lt hn) hv
    · by_cases hlow : v < front ++ [last]
      · by_contra hle
        exact IsPrefix.le (prefix_append (front ++ [last]) (replicate n 0xFF)) (List.lt_of_le_of_lt hle hlow)
      · obtain ⟨w, rfl⟩ := (between_snoc last hlast front v).mp ⟨hlow, hv _ rfl⟩
        refine append_left_lt (lt_replicate ?_)
        rw [length_append] at hn
        omega

/-- The bounds of a scan of the whole system keyspace; `none` where the code panics. -/
def reservedScanBounds : Option (Bytes × Bytes) :=
  let start := escape (strBytes reservedNamespace)
  (prefixSuccessor start).map fun stop => (start, stop)

theorem exists_reservedScanBounds : ∃ start stop, reservedScanBounds = some (start, stop) ∧
    ∀ key, Between start stop key ↔ escape (strBytes reservedNamespace) <+: key := by
  have hend := rangeEnd_escape [] (strBytes reservedNamespace)
  rw [nil_append, nil_append] at hend
  refine ⟨_, _, ?_, fun key => between_rangeEnd hend⟩
  rw [reservedScanBounds, prefixSuccessor_of_rangeEnd hend, map_some]

/-- The key that the builders give an entity. -/
def DecodedKey.key : DecodedKey → Bytes
  | .entity kind id => entityKey kind id
  | .appliedIndex => appliedIndexKey

theorem eq_of_unescapeOne_isEmpty {a x : Bytes} (h : unescapeOne bytes = some (a, x)) (hx : x.isEmpty) :
    bytes = escape a := by
  rw [eq_of_peelEscaped h, isEmpty_iff.mp hx, append_nil]

theorem key_of_decodeKey {d : DecodedKey} (h : decodeKey bytes = some d) : bytes = d.key := by
  unfold decodeKey at h
  obtain ⟨⟨ns, rest⟩, hns, h⟩ := bind_eq_some_iff.mp h
  dsimp only at h
  split_ifs at h with hreserved
  obtain rfl := not_ne_iff.mp hreserved
  obtain ⟨⟨segment, rest'⟩, hsegment, h⟩ := bind_eq_some_iff.mp h
  dsimp only at h
  rw [eq_of_peelEscaped hns]
  split_ifs at h with happlied hempty
  · cases h
    rw [eq_of_unescapeOne_isEmpty hsegment hempty, happlied]
    rfl
  · obtain ⟨kind, hkind, h⟩ := bind_eq_some_iff.mp h
    obtain ⟨⟨id, rest''⟩, hid, h⟩ := bind_eq_some_iff.mp h
    dsimp only at h
    split_ifs at h with hempty
    cases h
    have heq := find?_some hkind
    rw [eq_of_peelEscaped hsegment, ← of_decide_eq_true heq, eq_of_unescapeOne_isEmpty hid hempty]
    rfl

theorem decodeKey_key (d : DecodedKey) : decodeKey d.key = some d := by
  cases d with
  | entity kind id => exact decodeKey_entityKey kind id
  | appliedIndex => exact decodeKey_appliedIndexKey

/-- **System keys**: the typed keys are injective and read back, the keys decoded are the keys built,
exactly these lie in the scan's bounds with no row of a tablet among them, and the successor of a string is
the least bound of its extensions. -/
theorem system_key_codec : (∀ k k' : SysKey, k.encode = k'.encode → k = k') ∧
    (∀ k : SysKey, ∃ kind id, decodeKey k.encode = some (.entity kind id) ∧ SysKey.ofId kind id = some k) ∧
    (∀ name name', counterKey name = counterKey name' → name = name') ∧
      (∀ key d, decodeKey key = some d ↔ key = d.key) ∧
    (∃ start stop, reservedScanBounds = some (start, stop) ∧ (∀ d : DecodedKey, Between start stop d.key) ∧
      ∀ kind ∈ allKinds, ∀ key, ¬ Between start stop (physical kind key)) ∧
      ∀ p, (∀ stop, prefixSuccessor p = some stop →
        (∀ x, p <+: x → x < stop) ∧ ∀ u, (∀ x, p <+: x → ¬ u < x) → ¬ u < stop) ∧
      (prefixSuccessor p = none → ¬ ∃ u, ∀ x, p <+: x → ¬ u < x) := by
  refine ⟨fun k k' => SysKey.encode_injective, SysKey.decodeKey_encode, fun name name' h => ?_,
    fun key d => ⟨key_of_decodeKey, fun h => h ▸ decodeKey_key d⟩, ?_, fun p => ⟨fun stop hstop => ?_, ?_⟩⟩
  · have hdecode := decodeKey_entityKey .counter (strBytes name)
    rw [show entityKey .counter (strBytes name) = _ from h, counterKey, decodeKey_entityKey] at hdecode
    exact strBytes_injective (DecodedKey.entity.inj (some.inj hdecode)).2.symm
  · obtain ⟨start, stop, hbounds, hbetween⟩ := exists_reservedScanBounds
    refine ⟨start, stop, hbounds, fun d => (hbetween _).mpr ?_, fun kind hkind key h => ?_⟩
    · cases d <;> exact prefix_append _ _
    · -- the namespace starts with a byte that is no kind
      obtain ⟨rest, hrest⟩ := (hbetween _).mp h
      have hhead := congrArg head? hrest
      rw [head?_append, show (escape (strBytes reservedNamespace)).head? = some 0x5F by decide] at hhead
      obtain rfl : 0x5F = kind := some.inj hhead
      revert hkind
      decide
  · exact ⟨fun x => lt_prefixSuccessor hstop, fun u hu hlt => hu _ (prefix_append p _)
      (lt_append_replicate (Nat.lt_succ_self _) fun stop' hstop' => by cases hstop.symm.trans hstop'; exact hlt)⟩
  · rintro hnone ⟨u, hu⟩
    exact hu _ (prefix_append p _) (lt_append_replicate
      (Nat.lt_succ_self _) fun stop h => by cases hnone.symm.trans h)

end AnimusDb.Catalog
