import Mathlib.Algebra.Order.Field.Rat
import Mathlib.Algebra.Order.Group.Unbundled.Basic
import Mathlib.Algebra.Order.Field.Power
import Mathlib.Data.Nat.Digits.Lemmas
import Mathlib.Order.Compare
import Mathlib.Tactic.FieldSimp
import Mathlib.Tactic.Linarith
import Mathlib.Tactic.Positivity
import Mathlib.Tactic.Ring

/-! Words of decimal digits, most significant digit first: the natural number and the fraction that
a word denotes, and how the order of words decides the order of their values. -/

open List

namespace DecimalDigits

variable {α β : Type} [LinearOrder α] [LinearOrder β]

/-- The first key of a lexicographic comparison decides where the keys differ. -/
theorem then_eq_compare {a b : α} {p q : β} {o : Ordering} (hlt : a < b → p < q) (hgt : b < a → q < p)
    (heq : a = b → o = compare p q) : (compare a b).then o = compare p q := by
  rcases lt_trichotomy a b with h | h | h
  · rw [compare_lt_iff_lt.mpr h, compare_lt_iff_lt.mpr (hlt h), Ordering.lt_then]
  · rw [compare_eq_iff_eq.mpr h, Ordering.eq_then, heq h]
  · rw [compare_gt_iff_gt.mpr h, compare_gt_iff_gt.mpr (hgt h), Ordering.gt_then]

theorem compare_eq_compare {a b : α} {p q : β} (hlt : a < b → p < q) (hgt : b < a → q < p)
    (heq : a = b → p = q) : compare a b = compare p q := by
  have h := then_eq_compare (o := .eq) hlt hgt fun h => (compare_eq_iff_eq.mpr (heq h)).symm
  rwa [Ordering.then_eq] at h

theorem compare_neg_neg {p q : ℚ} : compare (-p) (-q) = (compare p q).swap := by
  rw [← Std.OrientedOrd.eq_swap]
  exact compare_eq_compare (fun h => neg_lt_neg_iff.mp h) (fun h => neg_lt_neg_iff.mp h) fun h =>
    (neg_injective h).symm

/-- The word consists of decimal digits. -/
def Digits (ds : List Nat) : Prop := ∀ d ∈ ds, d < 10

/-- The natural number that a word denotes. -/
def number (ds : List Nat) : Nat := Nat.ofDigits 10 ds.reverse

/-- The fraction that a word denotes when it stands after the point. -/
def fraction (ds : List Nat) : ℚ := number ds / 10 ^ ds.length

@[simp] theorem number_nil : number [] = 0 := rfl

theorem number_append (ds es : List Nat) : number (ds ++ es) = number ds * 10 ^ es.length + number es := by
  unfold number
  rw [reverse_append, Nat.ofDigits_append, length_reverse, Nat.add_comm, Nat.mul_comm]

theorem number_singleton (d : Nat) : number [d] = d := by simp [number]

theorem number_snoc (ds : List Nat) (d : Nat) : number (ds ++ [d]) = 10 * number ds + d := by
  rw [number_append, number_singleton, length_singleton, pow_one, Nat.mul_comm]

theorem number_cons (d : Nat) (ds : List Nat) : number (d :: ds) = d * 10 ^ ds.length + number ds := by
  rw [← singleton_append, number_append, number_singleton]

variable {ds : List Nat}

theorem number_lt (h : Digits ds) : number ds < 10 ^ ds.length := by
  have := Nat.ofDigits_lt_base_pow_length (b := 10) (by omega)
    (l := ds.reverse) fun x hx => h x (mem_reverse.mp hx)
  rwa [length_reverse] at this

theorem number_zeros (k : Nat) : number (replicate k 0) = 0 := by
  induction k with
  | zero => rfl
  | succ k ih => rw [replicate_succ', number_snoc, ih]

theorem number_zeros_append (k : Nat) (ds : List Nat) : number (replicate k 0 ++ ds) = number ds := by
  rw [number_append, number_zeros, Nat.zero_mul, Nat.zero_add]

theorem number_append_zeros (ds : List Nat) (k : Nat) :
    number (ds ++ replicate k 0) = number ds * 10 ^ k := by
  rw [number_append, number_zeros, Nat.add_zero, length_replicate]

variable {d : Nat}

theorem Digits.tail (h : Digits (d :: ds)) : Digits ds :=
  fun x hx => h x (mem_cons_of_mem _ hx)

theorem Digits.head (h : Digits (d :: ds)) : d < 10 :=
  h d mem_cons_self

@[simp] theorem fraction_nil : fraction [] = 0 := by simp [fraction]

theorem fraction_cons (d : Nat) (ds : List Nat) : fraction (d :: ds) = (d + fraction ds) / 10 := by
  unfold fraction
  rw [number_cons, length_cons, pow_succ]
  push_cast
  field_simp

theorem fraction_append_zeros (ds : List Nat) (k : Nat) : fraction (ds ++ replicate k 0) = fraction ds := by
  unfold fraction
  rw [number_append_zeros, length_append, length_replicate, pow_add]
  push_cast
  field_simp

/-- A word before the point and one after it denote the scaled number of the two together. -/
theorem number_append_eq (ds es : List Nat) :
    (number (ds ++ es) : ℚ) = (number ds + fraction es) * 10 ^ es.length := by
  unfold fraction
  rw [number_append]
  push_cast
  field_simp

theorem fraction_nonneg (ds : List Nat) : 0 ≤ fraction ds := by
  unfold fraction
  positivity

theorem fraction_lt_one (h : Digits ds) : fraction ds < 1 := by
  unfold fraction
  rw [div_lt_one (by positivity)]
  exact_mod_cast number_lt h

/-- The word does not begin with a zero. -/
def Leads (ds : List Nat) : Prop := ds.head? ≠ some 0

/-- The word does not end in a zero. -/
def Trimmed (ds : List Nat) : Prop := ds.getLast? ≠ some 0

theorem Trimmed.tail (h : Trimmed (d :: ds)) : Trimmed ds := by
  unfold Trimmed at *
  cases ds with
  | nil => simp
  | cons e es =>
    rw [getLast?_cons_cons] at h
    exact h

theorem fraction_pos (hne : ds ≠ []) (h : Trimmed ds) : 0 < fraction ds := by
  induction ds with
  | nil => exact absurd rfl hne
  | cons d ds ih =>
    rw [fraction_cons]
    have hnonneg := fraction_nonneg ds
    by_cases hds : ds = []
    · subst hds
      have hd : d ≠ 0 := by
        intro hzero
        exact h (by rw [hzero]; rfl)
      have : (0 : ℚ) < d := by exact_mod_cast Nat.pos_of_ne_zero hd
      positivity
    · have := ih hds h.tail
      positivity

theorem one_tenth_le_fraction (hne : ds ≠ []) (h : Leads ds) : 1 / 10 ≤ fraction ds := by
  cases ds with
  | nil => exact absurd rfl hne
  | cons d ds =>
    have hd : d ≠ 0 := fun hzero => h (by rw [hzero]; rfl)
    have : (1 : ℚ) ≤ d := by exact_mod_cast Nat.pos_of_ne_zero hd
    have := fraction_nonneg ds
    rw [fraction_cons]
    linarith

variable {es : List Nat}

theorem compare_fraction (hd : Digits ds) (he : Digits es) (htd : Trimmed ds)
    (hte : Trimmed es) : compare ds es = compare (fraction ds) (fraction es) := by
  induction ds generalizing es with
  | nil =>
    cases es with
    | nil => simp
    | cons e es =>
      have := fraction_pos (by simp) hte
      rw [List.compare_nil_cons, fraction_nil, compare_lt_iff_lt.mpr this]
  | cons d ds ih =>
    cases es with
    | nil =>
      have := fraction_pos (by simp) htd
      rw [List.compare_cons_nil, fraction_nil, compare_gt_iff_gt.mpr this]
    | cons e es =>
      have hd0 := fraction_nonneg ds
      have hd1 := fraction_lt_one hd.tail
      have he0 := fraction_nonneg es
      have he1 := fraction_lt_one he.tail
      rw [List.compare_cons_cons, fraction_cons, fraction_cons]
      refine then_eq_compare (fun h => ?_) (fun h => ?_) fun h => ?_
      · have : (d : ℚ) + 1 ≤ e := by exact_mod_cast h
        linarith
      · have : (e : ℚ) + 1 ≤ d := by exact_mod_cast h
        linarith
      · rw [ih hd.tail he.tail htd.tail hte.tail]
        subst h
        exact compare_eq_compare (fun h => by linarith) (fun h => by linarith) fun h => by rw [h]

theorem compare_number (hd : Digits ds) (he : Digits es)
    (hlen : ds.length = es.length) : compare ds es = compare (number ds) (number es) := by
  induction ds generalizing es with
  | nil =>
    cases es with
    | nil => simp
    | cons => simp at hlen
  | cons d ds ih =>
    cases es with
    | nil => simp at hlen
    | cons e es =>
      have hlen' : ds.length = es.length := by simpa using hlen
      have hds := number_lt hd.tail
      have hes := number_lt he.tail
      rw [List.compare_cons_cons, number_cons, number_cons, hlen']
      rw [hlen'] at hds
      have hstep {a b x y : Nat} (h : a < b) (hx : x < 10 ^ es.length) :
        a * 10 ^ es.length + x < b * 10 ^ es.length + y := by
        have := Nat.mul_le_mul_right (10 ^ es.length) (Nat.succ_le_of_lt h)
        rw [Nat.succ_mul] at this
        omega
      refine then_eq_compare (hstep · hds) (hstep · hes) fun h => ?_
      rw [ih hd.tail he.tail hlen']
      subst h
      exact compare_eq_compare (fun h => by omega) (fun h => by omega) fun h => by omega

theorem pow_le_number (h : Leads (d :: ds)) : 10 ^ ds.length ≤ number (d :: ds) := by
  have hd : d ≠ 0 := fun hzero => h (by rw [hzero]; rfl)
  rw [number_cons]
  have := Nat.le_mul_of_pos_left (10 ^ ds.length) (Nat.pos_of_ne_zero hd)
  omega

theorem number_lt_of_length_lt (hd : Digits ds) (he : Leads es) (hlen : ds.length < es.length) :
    number ds < number es := by
  cases es with
  | nil => simp at hlen
  | cons e es =>
    have hle : ds.length ≤ es.length := Nat.lt_succ_iff.mp hlen
    calc number ds < 10 ^ ds.length := number_lt hd
      _ ≤ 10 ^ es.length := Nat.pow_le_pow_right (by omega) hle
      _ ≤ number (e :: es) := pow_le_number he

/-- A fraction that begins with a digit other than zero, scaled by a power of ten. -/
theorem scaled_lt_scaled {a b : ℤ} (hd : Digits ds) (hne : es ≠ [])
    (hle : Leads es) (hab : a < b) : fraction ds * 10 ^ a < fraction es * 10 ^ b := by
  have hlow := one_tenth_le_fraction hne hle
  have hpow : (10 : ℚ) ^ a ≤ 1 / 10 * 10 ^ b := by
    have : (10 : ℚ) ^ a ≤ 10 ^ (b - 1) := zpow_le_zpow_right₀ (by norm_num) (by omega)
    rw [zpow_sub₀ (by norm_num), zpow_one] at this
    linarith
  have hbpos : (0 : ℚ) < 10 ^ b := by positivity
  calc fraction ds * 10 ^ a < 1 * 10 ^ a :=
        mul_lt_mul_of_pos_right (fraction_lt_one hd) (by positivity)
    _ = 10 ^ a := one_mul _
    _ ≤ 1 / 10 * 10 ^ b := hpow
    _ ≤ fraction es * 10 ^ b := mul_le_mul_of_nonneg_right hlow hbpos.le

/-- Normalised numbers are ordered by their exponent and then by their digits. -/
theorem compare_scaled {a b : ℤ} (hd : Digits ds) (he : Digits es)
    (hned : ds ≠ []) (hnee : es ≠ []) (hld : Leads ds) (hle : Leads es) (htd : Trimmed ds) (hte : Trimmed es) :
    (compare a b).then (compare ds es) = compare (fraction ds * 10 ^ a) (fraction es * 10 ^ b) := by
  refine then_eq_compare (scaled_lt_scaled hd hnee hle) (scaled_lt_scaled he hned hld) fun h => ?_
  subst h
  have hpos : (0 : ℚ) < 10 ^ a := by positivity
  rw [compare_fraction hd he htd hte]
  exact compare_eq_compare (fun h => mul_lt_mul_of_pos_right h hpos) (fun h => mul_lt_mul_of_pos_right h hpos)
    fun h => by rw [h]

end DecimalDigits
