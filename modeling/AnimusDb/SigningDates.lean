import AnimusDb.Gregorian
import AnimusDb.ItemNumKeyOrder

/-! The dates of request signatures: days since the epoch as dates and back, and the text of an instant. -/

open Gregorian RustText DecimalDigits List

namespace AnimusDb.Signing

/-- An `i64`; there is no value once an operation has overflowed. -/
structure I64 where
  value : Option Int
deriving DecidableEq

namespace I64

def of (x : Int) : I64 := ⟨some x⟩

def checked (x : Int) : I64 := if -2 ^ 63 ≤ x ∧ x ≤ Items.i64Max then of x else ⟨none⟩

/-- Both operands are there, and so is the result unless it is too large. -/
def lift (f : Int → Int → Int) (a b : I64) : I64 := ⟨do (checked (f (← a.value) (← b.value))).value⟩

instance instOfNat (n : Nat) : OfNat I64 n := ⟨of (OfNat.ofNat n)⟩
instance instAdd : Add I64 := ⟨lift (· + ·)⟩
instance instSub : Sub I64 := ⟨lift (· - ·)⟩
instance instMul : Mul I64 := ⟨lift (· * ·)⟩
instance instDiv : Div I64 := ⟨lift Int.tdiv⟩
instance instMod : Mod I64 := ⟨lift Int.tmod⟩

/-- A comparison panics too where there is no value; what it answers then does not count. -/
def holds (r : Int → Int → Bool) (a b : I64) : Bool := a.value.any fun a => b.value.any (r a)

variable {a b : Int}

theorem ofNat_eq (n : Nat) : (OfNat.ofNat n : I64) = of (OfNat.ofNat n) := rfl

theorem checked_of (h : -2 ^ 63 ≤ a) (h' : a < 2 ^ 63) :
    checked a = of a := if_pos ⟨h, Int.le_sub_one_of_lt h'⟩

theorem holds_of (r : Int → Int → Bool) : I64.holds r (of a) (of b) = r a b := rfl

theorem add_of (h : -2 ^ 63 ≤ a + b) (h' : a + b < 2 ^ 63) : of a + of b = of (a + b) := checked_of h h'

theorem sub_of (h : -2 ^ 63 ≤ a - b) (h' : a - b < 2 ^ 63) : of a - of b = of (a - b) := checked_of h h'

theorem mul_of (h : -2 ^ 63 ≤ a * b) (h' : a * b < 2 ^ 63) : of a * of b = of (a * b) := checked_of h h'

/-- Of numbers that are not negative the quotient is rounded down. -/
theorem div_of (ha : 0 ≤ a) (hb : 0 < b) (h' : a < 2 ^ 63) : of a / of b = of (a / b) := by
  have hle : a / b ≤ a := Int.ediv_le_self b ha
  have hnn := Int.ediv_nonneg ha hb.le
  rw [← Int.tdiv_eq_ediv_of_nonneg ha] at *
  exact checked_of (by omega) (by omega)

theorem mod_of (ha : 0 ≤ a) (hb : 0 < b) (h' : b < 2 ^ 63) : of a % of b = of (a % b) := by
  have hnn := Int.emod_nonneg a hb.ne'
  have hlt := Int.emod_lt_of_pos a hb
  rw [← Int.tmod_eq_emod_of_nonneg ha] at *
  exact checked_of (by omega) (by omega)

end I64

open I64

/-- `x as u32`. -/
def asU32 (x : Int) : Nat := (x % 2 ^ 32).toNat

def daysFromCivil (y : I64) (m d : Nat) : I64 :=
  let y := if m ≤ 2 then y - 1 else y
  let era := (if I64.holds (· ≥ ·) y 0 then y else y - 399) / 400
  let yoe := y - era * 400
  let mp := (of m + 9) % 12
  let doy := (153 * mp + 2) / 5 + of d - 1
  let doe := yoe * 365 + yoe / 4 - yoe / 100 + doy
  era * 146097 + doe - 719468

def civilFromDays (z : I64) : Option Date := do
  let z := z + 719468
  let era := (if I64.holds (· ≥ ·) z 0 then z else z - 146096) / 146097
  let doe := z - era * 146097
  let yoe := (doe - doe / 1460 + doe / 36524 - doe / 146096) / 365
  let y := yoe + era * 400
  let doy := doe - (365 * yoe + yoe / 4 - yoe / 100)
  let mp := (5 * doy + 2) / 153
  let d := asU32 (← (doy - (153 * mp + 2) / 5 + 1).value)
  let m := asU32 (← (if I64.holds (· < ·) mp 10 then mp + 3 else mp - 9).value)
  let y ← (if m ≤ 2 then y + 1 else y).value
  some ⟨y, m, d⟩

/-- `format!("{n:0width$}")` with a width of one at least: zeros after the sign. -/
def zeroPadded (width : Nat) (n : Int) : Text :=
  let sign := if n < 0 then ['-'] else []
  let digits := Nat.digits 10 n.natAbs
  sign ++ replicate (width - sign.length - digits.length) '0' ++ digits.reverse.map charOf

def formatAmzDate (epochSecs : Int) : Option Text :=
  let secsOfDay := epochSecs % 86400
  (civilFromDays (of (epochSecs / 86400))).map fun date =>
    zeroPadded 4 date.year ++ zeroPadded 2 date.month ++ zeroPadded 2 date.day ++ 'T' ::
      zeroPadded 2 (secsOfDay / 3600) ++ zeroPadded 2 (secsOfDay % 3600 / 60) ++
      zeroPadded 2 (secsOfDay % 60) ++ ['Z']

/-- The inner `digits` of `parse_amz_date`. -/
def digits (b : Text) (start stop : Nat) : Option Int :=
  let slice := (b.take stop).drop start
  if slice.all Char.isDigit then Items.parseI64 slice else none

def parseAmzDate (b : Text) : Option I64 := do
  if b.length ≠ 16 ∨ b[8]? ≠ some 'T' ∨ b[15]? ≠ some 'Z' then none else
  let year ← digits b 0 4
  let month ← digits b 4 6
  let day ← digits b 6 8
  let hour ← digits b 9 11
  let minute ← digits b 11 13
  let second ← digits b 13 15
  if ¬(1 ≤ month ∧ month ≤ 12) ∨ ¬(1 ≤ day ∧ day ≤ 31) ∨ ¬(0 ≤ hour ∧ hour ≤ 23) ∨
      ¬(0 ≤ minute ∧ minute ≤ 59) ∨ ¬(0 ≤ second ∧ second ≤ 60) then none else
  let days := daysFromCivil (of year) (asU32 month) (asU32 day)
  some (days * 86400 + of hour * 3600 + of minute * 60 + of second)

section Calendar

variable {a c k y z : Int}

/-- The division rounds towards zero, and what is subtracted from a negative number makes it round down. -/
theorem era_of (hk : 0 < k) (hk' : k < 2 ^ 32) (ha : -2 ^ 62 ≤ a) (ha' : a < 2 ^ 62 + 2 ^ 32) (hc : c = k - 1) :
    (if I64.holds (· ≥ ·) (of a) (of 0) then of a else of a - of c) / of k = of (a / k) := by
  by_cases h : 0 ≤ a
  · rw [if_pos (by simpa [holds_of] using h)]
    exact div_of h hk (by omega)
  · rw [if_neg (by simpa [holds_of] using h), sub_of (by omega) (by omega)]
    have htdiv : (a - c).tdiv k = a / k := by
      rw [← neg_neg (a - c), Int.neg_tdiv, Int.tdiv_eq_ediv_of_nonneg (by omega), eq_comm,
        Int.ediv_eq_iff_of_pos hk]
      have hdiv := Int.mul_ediv_add_emod (-(a - c)) k
      have hmod := Int.emod_nonneg (-(a - c)) hk.ne'
      have hmod' := Int.emod_lt_of_pos (-(a - c)) hk
      constructor <;> linarith
    have hlow : a ≤ a / k := by
      rw [Int.le_ediv_iff_mul_le hk]
      nlinarith
    have hhigh : a / k < 0 := Int.ediv_neg_of_neg_of_pos (by omega) hk
    rw [← htdiv] at hlow hhigh ⊢
    exact checked_of (by omega) (by omega)

/-- The year of a 400-year period that a day of the period belongs to. -/
def yearOfEra (doe : Int) : Int := (doe - doe / 1460 + doe / 36524 - doe / 146096) / 365

theorem yearOfEra_of {doe : Int} (h : 0 ≤ doe) (h' : doe < 146097) :
    (of doe - of doe / of 1460 + of doe / of 36524 - of doe / of 146096) / of 365 = of (yearOfEra doe) := by
  simp (disch := omega) only [div_of, sub_of, add_of]
  rfl

theorem yearOfEra_spec {doe yoe : Int} (h : 0 ≤ doe) (h' : doe < 146097) (hyoe : yearOfEra doe = yoe) :
    0 ≤ yoe ∧ yoe < 400 ∧
      0 ≤ doe - (365 * yoe + yoe / 4 - yoe / 100) ∧
      doe - (365 * yoe + yoe / 4 - yoe / 100) < 365 + leapDay (yoe + 1) := by
  unfold yearOfEra at hyoe
  have hleap := leapDay_succ yoe
  obtain ⟨hlow, hhigh⟩ : 0 ≤ yoe ∧ yoe < 400 := by omega
  refine ⟨hlow, hhigh, ?_⟩
  have hcentury : yoe / 100 = 0 ∨ yoe / 100 = 1 ∨ yoe / 100 = 2 ∨ yoe / 100 = 3 := by omega
  have : doe / 36524 = 0 ∨ doe / 36524 = 1 ∨ doe / 36524 = 2 ∨ doe / 36524 = 3 ∨ doe / 36524 = 4 := by omega
  have hlast : yoe % 100 = 99 ∨ (yoe + 1) / 100 = yoe / 100 ∧ (yoe + 1) / 400 = 0 := by omega
  have : yoe / 400 = 0 := by omega
  have : doe / 146096 = 0 ∨ doe = 146096 := by omega
  rcases hcentury with h | h | h | h <;> rcases hlast with hlast | hlast <;> omega

theorem asU32_of (h : 0 ≤ a) (h' : a < 2 ^ 32) : asU32 a = a.toNat := by
  rw [asU32, Int.emod_eq_of_lt h h']

theorem civilFromDays_of (h : -2 ^ 62 ≤ z) (h' : z ≤ 2 ^ 62) :
    ∃ date, civilFromDays (of z) = some date ∧ date.Valid ∧ date.dayNumber = z + 719468 := by
  unfold civilFromDays
  simp only [ofNat_eq]
  rw [add_of (by omega) (by omega), era_of (by omega) (by omega) (by omega) (by omega)
    (show (146096 : Int) = 146097 - 1 from rfl), mul_of (by omega) (by omega), sub_of (by omega) (by omega)]
  obtain ⟨e, he⟩ : ∃ e, (z + 719468) / 146097 = e := ⟨_, rfl⟩
  obtain ⟨doe, hdoe⟩ : ∃ doe, z + 719468 - e * 146097 = doe := ⟨_, rfl⟩
  obtain ⟨yoe, hyoe⟩ : ∃ yoe, yearOfEra doe = yoe := ⟨_, rfl⟩
  obtain ⟨doy, hdoy⟩ : ∃ doy, doe - (365 * yoe + yoe / 4 - yoe / 100) = doy := ⟨_, rfl⟩
  obtain ⟨hyear, hyear', hday, hday'⟩ := yearOfEra_spec (by omega) (by omega) hyoe
  rw [he, hdoe, yearOfEra_of (by omega) (by omega), hyoe]
  simp (disch := omega) only [div_of, mul_of, sub_of, add_of]
  rw [hdoy] at hday hday' ⊢
  rw [← leapDay_period _ e, show yoe + 1 + e * 400 = yoe + e * 400 + 1 by ring] at hday'
  have hleap := leapDay_le (yoe + e * 400 + 1)
  refine ⟨.ofMarch (yoe + e * 400) doy, ?_, (Date.ofMarch_spec hday hday').1, ?_⟩
  · obtain ⟨mp, hmp⟩ : ∃ mp, (5 * doy + 2) / 153 = mp := ⟨_, rfl⟩
    have hd : asU32 (doy - (153 * mp + 2) / 5 + 1) = (doy - monthStart mp + 1).toNat :=
      asU32_of (by omega) (by omega)
    rw [hmp, holds_of]
    by_cases hlt : mp < 10
    · have hm : asU32 (mp + 3) = (mp + 3).toNat := asU32_of (by omega) (by omega)
      simp [of, hlt, Date.ofMarch, hmp, hd, hm, show ¬(mp + 3).toNat ≤ 2 by omega]
    · have hm : asU32 (mp - 9) = (mp - 9).toNat := asU32_of (by omega) (by omega)
      simp [of, hlt, Date.ofMarch, hmp, hd, hm, show mp ≤ 11 by omega]
  · rw [(Date.ofMarch_spec hday hday').2, yearStart_period, yearStart]
    omega

theorem daysFromCivil_of {date : Date} (hvalid : date.Valid) (h : -2 ^ 54 ≤ date.year) (h' : date.year ≤ 2 ^ 54) :
    daysFromCivil (of date.year) date.month date.day = of (date.dayNumber - 719468) := by
  obtain ⟨⟨hlow, hhigh⟩, hday, hday'⟩ := hvalid
  unfold daysFromCivil
  simp only [ofNat_eq]
  rw [sub_of (by omega) (by omega), ← apply_ite of]
  obtain ⟨y, hy⟩ : ∃ y, (if date.month ≤ 2 then date.year - 1 else date.year) = y := ⟨_, rfl⟩
  have hy' : y = date.year ∨ y = date.year - 1 := by split at hy <;> omega
  rw [hy, era_of (by omega) (by omega) (by omega) (by omega) (show (399 : Int) = 400 - 1 from rfl)]
  have hmonth := date.marchMonth_le
  simp (disch := omega) only [add_of, mod_of]
  change _ = of (yearStart (if date.month ≤ 2 then date.year - 1 else date.year) + monthStart
    date.marchMonth + date.day - 1 - 719468)
  rw [hy, show ((date.month : Int) + 9) % 12 = date.marchMonth from rfl]
  have hdays := daysInMonth_le date.year date.month
  simp (disch := omega) only [add_of, sub_of, mul_of, div_of]
  unfold yearStart monthStart
  congr 1
  omega

/-- The year is about the number of days through their mean in a year. -/
theorem year_bounds {date : Date} (hvalid : date.Valid) :
    365 * date.year + date.year / 4 - date.year / 100 + date.year / 400 - 400 ≤ date.dayNumber ∧
      date.dayNumber ≤ 365 * date.year + date.year / 4 - date.year / 100 + date.year / 400 + 400 := by
  have hyear := date.marchYear_eq
  have hmonth := date.marchMonth_le
  have hday := hvalid.day
  have hdays := daysInMonth_le date.year date.month
  unfold Date.dayNumber yearStart monthStart
  omega

theorem days_civil (h : -2 ^ 62 ≤ z) (h' : z ≤ 2 ^ 62) : ∃ date, civilFromDays (of z) = some date ∧
    date.Valid ∧ date.dayNumber = z + 719468 ∧ daysFromCivil (of date.year) date.month date.day = of z := by
  obtain ⟨date, hdate, hvalid, hnumber⟩ := civilFromDays_of h h'
  have hyear := year_bounds hvalid
  refine ⟨date, hdate, hvalid, hnumber, ?_⟩
  rw [daysFromCivil_of hvalid (by omega) (by omega), hnumber, add_sub_cancel_right]

end Calendar

section Text

variable {width n : Nat}

/-- A number that fits its width takes just that width, and is read back. -/
theorem zeroPadded_spec (h : n < 10 ^ width) (hwidth : width ≤ 4) : (zeroPadded width n).length = width ∧
    (zeroPadded width n).all Char.isDigit ∧ Items.parseI64 (zeroPadded width n) = some (n : Int) := by
  obtain ⟨ds, hds⟩ : ∃ ds, ds = replicate (width - (Nat.digits 10 n).length) 0 ++
    (Nat.digits 10 n).reverse := ⟨_, rfl⟩
  have hlen : (Nat.digits 10 n).length ≤ width := (Nat.digits_length_le_iff (by omega) n).mpr h
  have hdigits : Digits ds := by
    intro d hd
    rcases mem_append.mp (hds ▸ hd) with hd | hd
    · rw [eq_of_mem_replicate hd]
      omega
    · exact Nat.digits_lt_base (by omega) (mem_reverse.mp hd)
  have hnumber : number ds = n := by rw [hds, number_zeros_append, number, reverse_reverse, Nat.ofDigits_digits]
  have htext : zeroPadded width n = ds.map charOf := by
    have hneg : ¬(n : Int) < 0 := by omega
    have hzero : charOf 0 = '0' := rfl
    simp [zeroPadded, hneg, hzero, hds]
  have hlt := h.trans_le (Nat.pow_le_pow_right (by omega) hwidth)
  refine htext ▸ ⟨by simp [hds, hlen], ?_, ?_⟩
  · rw [all_map, all_eq_true]
    exact fun d hd => isDigit_charOf (hdigits d hd)
  · rw [Items.parseI64, Items.digitsOf_charOf hdigits, hnumber, if_pos]
    simp only [Items.i64Max]
    omega

theorem parseAmzDate_text {y m d hh mm ss : Nat} (hy : y < 10 ^ 4) (hm : 1 ≤ m ∧ m ≤ 12) (hd : 1 ≤ d ∧ d ≤ 31)
    (hhh : hh ≤ 23) (hmm : mm ≤ 59) (hss : ss ≤ 60) :
    parseAmzDate (zeroPadded 4 y ++ zeroPadded 2 m ++ zeroPadded 2 d ++
      'T' :: zeroPadded 2 hh ++ zeroPadded 2 mm ++ zeroPadded 2 ss ++ ['Z']) =
    some (daysFromCivil (of y) m d * 86400 + of hh * 3600 + of mm * 60 + of ss) := by
  have two {n : Nat} (h : n ≤ 60) := zeroPadded_spec (show n < 10 ^ 2 by omega) (by omega)
  obtain ⟨ly, ay, py⟩ := zeroPadded_spec hy le_rfl
  obtain ⟨lm, am, pm⟩ := two (show m ≤ 60 by omega)
  obtain ⟨ld, ad, pd⟩ := two (show d ≤ 60 by omega)
  obtain ⟨lh, ah, ph⟩ := two (show hh ≤ 60 by omega)
  obtain ⟨li, ai, pi⟩ := two (show mm ≤ 60 by omega)
  obtain ⟨ls, as, ps⟩ := two hss
  have hm' : asU32 m = m := asU32_of (by omega) (by omega)
  have hd' : asU32 d = d := asU32_of (by omega) (by omega)
  simp [parseAmzDate, digits, take_append, drop_append, drop_eq_nil_of_le, *]

theorem parse_format {t : Int} {date : Date} (hlow : -2 ^ 63 ≤ t) (hhigh : t < 2 ^ 63)
    (hdate : civilFromDays (of (t / 86400)) = some date) (hyear : 0 ≤ date.year) (hyear' : date.year ≤ 9999) :
    ∃ text, formatAmzDate t = some text ∧ parseAmzDate text = some (of t) := by
  obtain ⟨date', hdate', hvalid, hnumber, hdays⟩ := days_civil (z := t / 86400) (by omega) (by omega)
  obtain rfl : date = date' := Option.some.inj (hdate.symm.trans hdate')
  have hmonths := daysInMonth_le date.year date.month
  have hbounds := year_bounds hvalid
  obtain ⟨hmonth, hday⟩ := hvalid
  obtain ⟨y, m, d⟩ := date
  dsimp only at *
  lift y to Nat using hyear
  obtain ⟨s, hs⟩ := Int.eq_ofNat_of_zero_le (show 0 ≤ t % 86400 by omega)
  refine ⟨_, by rw [formatAmzDate, hdate, hs]; rfl, ?_⟩
  have hparse := parseAmzDate_text (y := y) (m := m) (d := d) (by omega) hmonth ⟨hday.1, by omega⟩
    (show s / 3600 ≤ 23 by omega) (show s % 3600 / 60 ≤ 59 by omega) (show s % 60 ≤ 60 by omega)
  rw [hdays] at hparse
  simp only [ofNat_eq] at hparse
  simp (disch := omega) only [mul_of, add_of] at hparse
  rwa [show t / 86400 * 86400 + ↑(s / 3600) * 3600 + ↑(s % 3600 / 60) * 60 + ↑(s % 60) = t by omega] at hparse

end Text

/-- On the days of all numbers of seconds and far beyond them the conversions undo each other without an
overflow, the dates are those of the calendar, in its order and without gaps, and what is written for an
instant of a four-digit year is read back. -/
theorem civil_calendar : (∀ d, -2 ^ 62 ≤ d → d ≤ 2 ^ 62 → ∃ date, civilFromDays (of d) = some date ∧ date.Valid ∧
      daysFromCivil (of date.year) date.month date.day = of d) ∧
      (∀ d d' date date', -2 ^ 62 ≤ d → d < d' → d' ≤ 2 ^ 62 →
      civilFromDays (of d) = some date → civilFromDays (of d') = some date' → date.Before date') ∧
    (∀ d d' first last date, -2 ^ 62 ≤ d → d' ≤ 2 ^ 62 → d ≤ d' →
      civilFromDays (of d) = some first → civilFromDays (of d') = some last →
      date.Valid → ¬date.Before first → ¬last.Before date → ∃ n, d ≤ n ∧ n ≤ d' ∧
        civilFromDays (of n) = some date) ∧
    (∀ t date, -2 ^ 63 ≤ t → t < 2 ^ 63 → civilFromDays (of (t / 86400)) = some date → 0 ≤ date.year →
      date.year ≤ 9999 → ∃ text, formatAmzDate t = some text ∧ parseAmzDate text = some (of t)) := by
  have spec {n date} (h : -2 ^ 62 ≤ n) (h' : n ≤ 2 ^ 62) (hn : civilFromDays (of n) = some date) :
      date.Valid ∧ date.dayNumber = n + 719468 := by
    obtain ⟨date', hdate', hvalid, hnumber, -⟩ := days_civil h h'
    obtain rfl := Option.some.inj (hn.symm.trans hdate')
    exact ⟨hvalid, hnumber⟩
  refine ⟨?_, ?_, ?_, fun t date => parse_format⟩
  · intro d h h'
    obtain ⟨date, hdate, hvalid, -, hdays⟩ := days_civil h h'
    exact ⟨date, hdate, hvalid, hdays⟩
  · intro d d' date date' hlow hlt hhigh hd hd'
    obtain ⟨hvalid, hnumber⟩ := spec hlow (by omega) hd
    obtain ⟨hvalid', hnumber'⟩ := spec (by omega) hhigh hd'
    exact hvalid.before_of_dayNumber hvalid' (by omega)
  · intro d d' first last date hlow hhigh hle hd hd' hvalid hfirst hlast
    obtain ⟨hvalid₁, hnumber₁⟩ := spec hlow (by omega) hd
    obtain ⟨hvalid₂, hnumber₂⟩ := spec (by omega) hhigh hd'
    have hlow' : first.dayNumber ≤ date.dayNumber := not_lt.mp fun h =>
      hfirst (hvalid.before_of_dayNumber hvalid₁ h)
    have hhigh' : date.dayNumber ≤ last.dayNumber := not_lt.mp fun h =>
      hlast (hvalid₂.before_of_dayNumber hvalid h)
    -- the day of the same number is the date, for numbers tell valid dates apart
    obtain ⟨date', hdate', hvalid', hnumber', -⟩ := days_civil (z := date.dayNumber - 719468) (by omega) (by omega)
    obtain rfl := hvalid'.eq_of_dayNumber hvalid (by omega)
    exact ⟨_, by omega, by omega, hdate'⟩

end AnimusDb.Signing
