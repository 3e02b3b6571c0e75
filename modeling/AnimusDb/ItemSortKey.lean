import AnimusDb.ItemCompare
import AnimusDb.ItemKeyLayout

/-! The sort-key conditions of a query, on typed values and on the bytes that stand for them in keys. On
values of one declared type both are the bytewise condition on the key bytes, which cuts out an interval. -/

open RustText DecimalDigits List

namespace AnimusDb.Items

inductive Comparator where
  | eq
  | ne
  | lt
  | le
  | gt
  | ge
deriving DecidableEq

/-- Operands that cannot be compared satisfy no comparator. -/
def Comparator.holds (op : Comparator) : Option Ordering → Bool
  | none => false
  | some order =>
    match op with
    | .eq => order == .eq
    | .ne => order != .eq
    | .lt => order == .lt
    | .le => order != .gt
    | .gt => order == .gt
    | .ge => order != .lt

inductive SortKeyCondition where
  | compare (op : Comparator) (target : AttributeValue)
  | between (lo hi : AttributeValue)
  | beginsWith (start : AttributeValue)

/-- Two numbers that the decimal code reads are ordered by value, all else by key bytes. -/
def sortKeyCmp (a b : AttributeValue) : Except FormatPanic Ordering :=
  match a, b with
  | .N x, .N y => do
      match ← compareNumeric x y with
      | some order => .ok order
      | none => .ok (compare a.keyBytes b.keyBytes)
  | _, _ => .ok (compare a.keyBytes b.keyBytes)

namespace SortKeyCondition

/-- `matches`. -/
def matchesValue (v : AttributeValue) : SortKeyCondition → Except FormatPanic Bool
  | .compare op target => do .ok (op.holds (some (← sortKeyCmp v target)))
  | .between lo hi => do
      if (← sortKeyCmp v lo) = .lt then .ok false
      else .ok ((← sortKeyCmp v hi) != .gt)
  | .beginsWith start => .ok (start.keyBytes.isPrefixOf v.keyBytes)

def isNumeric : SortKeyCondition → Bool
  | .compare _ (.N _) | .between (.N _) _ | .between _ (.N _) => true
  | _ => false

/-- The key bytes of a stored row, read as the type of the condition's operands. -/
def matchesRaw (cond : SortKeyCondition) (raw : List UInt8) : Except FormatPanic Bool :=
  if cond.isNumeric then
    match decode raw with
    | some text => cond.matchesValue (.N text)
    | none => cond.matchesValue (.B raw)
  else cond.matchesValue (.B raw)

def operands : SortKeyCondition → List AttributeValue
  | .compare _ v | .beginsWith v => [v]
  | .between lo hi => [lo, hi]

/-- The condition as one on key bytes alone. -/
def holdsAt (x : List UInt8) : SortKeyCondition → Bool
  | .compare op target => op.holds (some (Ord.compare x target.keyBytes))
  | .between lo hi => Ord.compare x lo.keyBytes != .lt && Ord.compare x hi.keyBytes != .gt
  | .beginsWith start => start.keyBytes.isPrefixOf x

end SortKeyCondition

variable {a b : Text} {x y : List UInt8} {v w : AttributeValue} {cond : SortKeyCondition} {t : KeyType}

theorem compareNumeric_accepted (ha : encodeChecked a = some x) (hb : encodeChecked b = some y) :
    compareNumeric a b = .ok none ∨ compareNumeric a b = .ok (some (compare x y)) := by
  cases hpa : decimalParts a with
  | none => exact .inl (by simp [compareNumeric, compareParts, hpa])
  | some pa =>
    cases hpb : decimalParts b with
    | none => exact .inl (by simp [compareNumeric, compareParts, hpb])
    | some pb =>
      obtain ⟨⟨_, m, rfl, -⟩, -⟩ := encodeChecked_denotes ha
      obtain ⟨⟨_, k, rfl, -⟩, -⟩ := encodeChecked_denotes hb
      have hm := Numeral.plain_of_decimalParts hpa
      have hk := Numeral.plain_of_decimalParts hpb
      exact .inr (hm.compareNumeric_accepted hk ha hb).1

theorem keyBytes_of_encodeChecked (h : encodeChecked a = some x) : (AttributeValue.N a).keyBytes = x := by
  simp [AttributeValue.keyBytes, encode_of_encodeChecked h]

theorem sortKeyCmp_eq (hv : v.IsKey t) (hw : w.IsKey t) :
    sortKeyCmp v w = .ok (compare v.keyBytes w.keyBytes) := by
  cases t <;> cases v <;> cases w <;> first | exact hv.elim | exact hw.elim | rfl | skip
  rename_i a b
  obtain ⟨x, hx⟩ := Option.isSome_iff_exists.mp hv
  obtain ⟨y, hy⟩ := Option.isSome_iff_exists.mp hw
  unfold sortKeyCmp
  dsimp only
  rw [keyBytes_of_encodeChecked hx, keyBytes_of_encodeChecked hy]
  rcases compareNumeric_accepted hx hy with h | h <;> rw [h] <;> rfl

theorem matchesValue_eq (h : ∀ w ∈ cond.operands, sortKeyCmp v w = .ok (compare v.keyBytes w.keyBytes)) :
    cond.matchesValue v = .ok (cond.holdsAt v.keyBytes) := by
  cases cond with
  | compare op target =>
    rw [SortKeyCondition.matchesValue, h target (.head _)]
    rfl
  | between lo hi =>
    rw [SortKeyCondition.matchesValue, h lo (.head _), h hi (.tail _ (.head _))]
    change (if _ then _ else _) = Except.ok (_ != _ && _)
    split_ifs with hlt
    · rw [hlt]
      rfl
    · rw [bne_iff_ne.mpr hlt, Bool.true_and]
      rfl
  | beginsWith start => rfl

theorem decode_accepted (h : encodeChecked a = some x) :
    ∃ text, decode x = some text ∧ encodeChecked text = some x := by
  obtain ⟨neg, e, ds, hcanonical, hform, -⟩ := encodeChecked_form h
  obtain ⟨hc, -⟩ := canonicalize_spec hcanonical
  obtain ⟨text, hdecode, htext⟩ := hform.decode_eq hc
  exact ⟨text, hdecode, (encodeChecked_congr (htext.trans hcanonical.symm)).trans h⟩

theorem matchesRaw_eq (hcond : ∀ w ∈ cond.operands, w.IsKey t) (hv : v.IsKey t) :
    cond.matchesRaw v.keyBytes = .ok (cond.holdsAt v.keyBytes) := by
  unfold SortKeyCondition.matchesRaw
  split_ifs with hnumeric
  · obtain ⟨n, hmem⟩ : ∃ n, .N n ∈ cond.operands := by
      unfold SortKeyCondition.isNumeric at hnumeric
      split at hnumeric <;> simp [SortKeyCondition.operands] at hnumeric ⊢
    have hkey := hcond _ hmem
    cases t <;> cases v <;> first | exact hkey.elim | exact hv.elim | skip
    rename_i m
    obtain ⟨x, hx⟩ := Option.isSome_iff_exists.mp hv
    obtain ⟨text, hdecode, htext⟩ := decode_accepted hx
    rw [keyBytes_of_encodeChecked hx, hdecode, ← keyBytes_of_encodeChecked htext]
    exact matchesValue_eq fun w hw => sortKeyCmp_eq (t := .N) (Option.isSome_of_eq_some htext) (hcond w hw)
  · exact matchesValue_eq (v := .B v.keyBytes) fun w _ => rfl

variable {z p : List UInt8}

theorem prefix_convex (hxy : (compare x y).isLE) (hyz : (compare y z).isLE) (hx : p <+: x) (hz : p <+: z) :
    p <+: y := by
  induction p generalizing x y z with
  | nil => exact nil_prefix
  | cons c p ih =>
    obtain ⟨x, rfl⟩ := hx
    obtain ⟨z, rfl⟩ := hz
    cases y with
    | nil => cases hxy
    | cons d y =>
      simp only [cons_append, List.compare_cons_cons, Ordering.isLE_then_iff_and] at hxy hyz
      obtain rfl : c = d := Std.LawfulEqOrd.eq_of_compare (Std.OrientedCmp.isLE_antisymm hxy.1 hyz.1)
      have hself : compare c c ≠ .lt := by simp
      exact cons_prefix_cons.mpr ⟨rfl, ih (hxy.2.resolve_left hself) (hyz.2.resolve_left hself)
        (prefix_append _ _) (prefix_append _ _)⟩

/-- Every condition but an inequality holds on an interval of byte strings. -/
theorem holdsAt_convex {cond : SortKeyCondition} (hne : ∀ w, cond ≠ .compare .ne w) (hxy : (compare x y).isLE)
    (hyz : (compare y z).isLE) (hx : cond.holdsAt x = true) (hz : cond.holdsAt z = true) :
    cond.holdsAt y = true := by
  have hlow {w : List UInt8} : compare x w ≠ .lt → compare y w ≠ .lt := fun hx hy =>
    hx (Std.TransCmp.lt_of_isLE_of_lt hxy hy)
  have habove {w : List UInt8} (hx : compare x w = .gt) : compare y w = .gt :=
    Std.OrientedCmp.gt_of_lt (Std.TransCmp.lt_of_lt_of_isLE (Std.OrientedCmp.lt_of_gt hx) hxy)
  have hhigh {w : List UInt8} : compare z w ≠ .gt → compare y w ≠ .gt := fun hz hy =>
    hz (Std.OrientedCmp.gt_of_lt (Std.TransCmp.lt_of_lt_of_isLE (Std.OrientedCmp.lt_of_gt hy) hyz))
  cases cond with
  | compare op target =>
    cases op <;> simp only [SortKeyCondition.holdsAt, Comparator.holds, beq_iff_eq, bne_iff_ne] at hx hz ⊢
    case eq =>
      have hge : compare y target.keyBytes ≠ .lt := hlow (by simp [hx])
      have hle : compare y target.keyBytes ≠ .gt := hhigh (by simp [hz])
      cases h : compare y target.keyBytes <;> simp_all
    case ne => exact absurd rfl (hne target)
    case lt => exact Std.TransCmp.lt_of_isLE_of_lt hyz hz
    case le => exact hhigh hz
    case gt => exact habove hx
    case ge => exact hlow hx
  | between lo hi =>
    simp only [SortKeyCondition.holdsAt, Bool.and_eq_true, bne_iff_ne] at hx hz ⊢
    exact ⟨hlow hx.1, hhigh hz.2⟩
  | beginsWith start =>
    simp only [SortKeyCondition.holdsAt, isPrefixOf_iff_prefix] at hx hz ⊢
    exact prefix_convex hxy hyz hx hz

/-- For values and operands of one declared key type a condition comes out the same on a value and on its
key bytes; and the keys on which a condition other than an inequality holds leave out no key between two of
them. -/
theorem sort_key_conditions_agree (t : KeyType) (cond : SortKeyCondition)
    (hcond : ∀ w ∈ cond.operands, w.IsKey t) :
    (∀ v : AttributeValue, v.IsKey t → ∃ r, cond.matchesValue v = .ok r ∧ cond.matchesRaw v.keyBytes = .ok r) ∧
    ((∀ w, cond ≠ .compare .ne w) → ∀ u v w : AttributeValue, u.IsKey t → v.IsKey t → w.IsKey t →
      (compare u.keyBytes v.keyBytes).isLE → (compare v.keyBytes w.keyBytes).isLE →
      cond.matchesRaw u.keyBytes = .ok true → cond.matchesRaw w.keyBytes = .ok true →
        cond.matchesRaw v.keyBytes = .ok true) := by
  refine ⟨fun v hv => ⟨cond.holdsAt v.keyBytes, ?_, matchesRaw_eq hcond hv⟩, ?_⟩
  · exact matchesValue_eq fun w hw => sortKeyCmp_eq hv (hcond w hw)
  · intro hne u v w hu hv hw huv hvw hfirst hlast
    rw [matchesRaw_eq hcond hu] at hfirst
    rw [matchesRaw_eq hcond hw] at hlast
    rw [matchesRaw_eq hcond hv]
    exact congrArg Except.ok (holdsAt_convex hne huv hvw (Except.ok.inj hfirst) (Except.ok.inj hlast))

/-- A number against a bound that only the key encoding reads. -/
theorem sort_key_conditions_agree_spellings :
    ∃ r, (SortKeyCondition.compare .le (.N "1e1".toList)).matchesValue (.N "+9.50".toList) = .ok r ∧
      (SortKeyCondition.compare .le (.N "1e1".toList)).matchesRaw (AttributeValue.N "+9.50".toList).keyBytes =
      .ok r :=
  have accepted (n : Text) (h : (encodeChecked n).isSome = true) : (AttributeValue.N n).IsKey .N := h
  (sort_key_conditions_agree .N (.compare .le (.N "1e1".toList))
    (forall_mem_singleton.mpr (accepted _ (by decide +kernel)))).1 _ (accepted _ (by decide +kernel))

/-- An inequality leaves out the key between two others. -/
theorem sort_key_inequality_not_convex :
    let cond := SortKeyCondition.compare .ne (.S ['b'])
    cond.matchesRaw (AttributeValue.S ['a']).keyBytes = .ok true ∧
      cond.matchesRaw (AttributeValue.S ['b']).keyBytes = .ok false ∧
      cond.matchesRaw (AttributeValue.S ['c']).keyBytes = .ok true := ⟨rfl, rfl, rfl⟩

end AnimusDb.Items
