import Mathlib.Order.Lattice
import Mathlib.Tactic.IntervalCases
import Mathlib.Tactic.Ring

/-! The Gregorian calendar, in both directions without end. Days are numbered from the first of March of the
year 0, so that the leap day is the last of its year. -/

namespace Gregorian

def IsLeap (y : Int) : Prop := y % 4 = 0 ∧ (y % 100 ≠ 0 ∨ y % 400 = 0)

instance instDecidableIsLeap (y : Int) : Decidable (IsLeap y) := inferInstanceAs (Decidable (_ ∧ _))

def leapDay (y : Int) : Nat := if IsLeap y then 1 else 0

def daysInMonth (y : Int) (m : Nat) : Nat :=
  if m = 2 then 28 + leapDay y else if m = 4 ∨ m = 6 ∨ m = 9 ∨ m = 11 then 30 else 31

structure Date where
  year : Int
  month : Nat
  day : Nat
deriving DecidableEq

namespace Date

structure Valid (a : Date) : Prop where
  month : 1 ≤ a.month ∧ a.month ≤ 12
  day : 1 ≤ a.day ∧ a.day ≤ daysInMonth a.year a.month

def Before (a b : Date) : Prop :=
  a.year < b.year ∨ a.year = b.year ∧ (a.month < b.month ∨ a.month = b.month ∧ a.day < b.day)

/-- The year that begins in March. -/
def marchYear (a : Date) : Int := if a.month ≤ 2 then a.year - 1 else a.year

/-- The months since March. -/
def marchMonth (a : Date) : Int := (a.month + 9) % 12

end Date

/-- The first day of a year that begins in March. -/
def yearStart (y : Int) : Int := 365 * y + y / 4 - y / 100 + y / 400

/-- The first day of a month of such a year. -/
def monthStart (m : Int) : Int := (153 * m + 2) / 5

def Date.dayNumber (a : Date) : Int := yearStart a.marchYear + monthStart a.marchMonth + a.day - 1

theorem yearStart_mono {y y' : Int} (h : y ≤ y') : yearStart y ≤ yearStart y' := by
  unfold yearStart
  omega

theorem leapDay_le (y : Int) : leapDay y ≤ 1 := by
  unfold leapDay
  split <;> omega

theorem daysInMonth_le (y : Int) (m : Nat) : daysInMonth y m ≤ 31 := by
  have := leapDay_le y
  unfold daysInMonth
  split_ifs <;> omega

theorem leapDay_succ (y : Int) : (leapDay (y + 1) : Int) =
    (y + 1) / 4 - y / 4 - ((y + 1) / 100 - y / 100) + ((y + 1) / 400 - y / 400) := by
  unfold leapDay
  split <;> rename_i h <;> unfold IsLeap at h <;> omega

theorem yearStart_succ (y : Int) : yearStart (y + 1) = yearStart y + 365 + leapDay (y + 1) := by
  rw [leapDay_succ]
  unfold yearStart
  ring

theorem leapDay_period (y e : Int) : leapDay (y + e * 400) = leapDay y := by
  unfold leapDay IsLeap
  congr 1
  refine propext ?_
  omega

theorem yearStart_period (y e : Int) : yearStart (y + e * 400) = yearStart y + e * 146097 := by
  unfold yearStart
  omega

namespace Date

variable {a b : Date}

/-- A day ends its month at the latest, or the year if the month is the last. -/
theorem Valid.month_end (h : a.Valid) : monthStart a.marchMonth + a.day ≤
    if a.marchMonth = 11 then (365 + leapDay (a.marchYear + 1) : Int) else monthStart (a.marchMonth + 1) := by
  obtain ⟨⟨hlow, hhigh⟩, -, hday⟩ := h
  obtain ⟨y, m, d⟩ := a
  dsimp only at hlow hhigh hday
  interval_cases m <;> simp [daysInMonth, marchMonth, marchYear, monthStart] at hday ⊢ <;> omega

theorem marchYear_eq (a : Date) : a.marchYear = a.year ∨ a.marchYear = a.year - 1 := by
  unfold marchYear
  split <;> omega

theorem marchMonth_le (a : Date) : 0 ≤ a.marchMonth ∧ a.marchMonth ≤ 11 := by
  unfold marchMonth
  omega

theorem Before.dayNumber_lt (h : a.Before b) (ha : a.Valid) (hb : b.Valid) : a.dayNumber < b.dayNumber := by
  have hend := ha.month_end
  have hday := hb.day.1
  obtain ⟨ham, -⟩ := ha
  obtain ⟨hbm, -⟩ := hb
  obtain hyear | ⟨hyear, hmonth⟩ : a.marchYear < b.marchYear ∨ a.marchYear = b.marchYear ∧
      (a.marchMonth < b.marchMonth ∨ a.marchMonth = b.marchMonth ∧ a.day < b.day) := by
    unfold Before at h
    unfold marchYear marchMonth
    split_ifs <;> omega
  · have hstart := yearStart_mono (show a.marchYear + 1 ≤ b.marchYear from hyear)
    have hlast := a.marchMonth_le
    have hfirst := b.marchMonth_le
    rw [yearStart_succ] at hstart
    unfold dayNumber monthStart at *
    split_ifs at hend <;> omega
  · have hlast := b.marchMonth_le
    unfold dayNumber monthStart at *
    rw [hyear]
    split_ifs at hend <;> omega

theorem before_trichotomy (a b : Date) : a.Before b ∨ a = b ∨ b.Before a := by
  obtain ⟨y, m, d⟩ := a
  obtain ⟨y', m', d'⟩ := b
  simp only [Before, mk.injEq]
  omega

theorem Valid.eq_of_dayNumber (ha : a.Valid) (hb : b.Valid) (h : a.dayNumber = b.dayNumber) : a = b := by
  rcases before_trichotomy a b with hab | hab | hba
  · exact absurd h (hab.dayNumber_lt ha hb).ne
  · exact hab
  · exact absurd h (hba.dayNumber_lt hb ha).ne'

theorem Valid.before_of_dayNumber (ha : a.Valid) (hb : b.Valid) (h : a.dayNumber < b.dayNumber) : a.Before b := by
  rcases before_trichotomy a b with hab | rfl | hba
  · exact hab
  · exact absurd h (lt_irrefl _)
  · exact absurd h (hba.dayNumber_lt hb ha).not_gt

/-- The date of a day of a year that begins in March. -/
def ofMarch (y doy : Int) : Date :=
  let mp := (5 * doy + 2) / 153
  ⟨if mp < 10 then y else y + 1, (if mp < 10 then mp + 3 else mp - 9).toNat, (doy - monthStart mp + 1).toNat⟩

/-- The months since March are as long as the calendar has them, and the leap day is the last of their year. -/
theorem ofMarch_spec {y doy : Int} (h : 0 ≤ doy) (h' : doy < 365 + leapDay (y + 1)) :
    (ofMarch y doy).Valid ∧ (ofMarch y doy).dayNumber = yearStart y + doy := by
  have hleap := leapDay_le (y + 1)
  obtain ⟨mp, hmp⟩ : ∃ mp, (5 * doy + 2) / 153 = mp := ⟨_, rfl⟩
  have hlow : 0 ≤ mp := by omega
  have hhigh : mp ≤ 11 := by omega
  suffices hparts : (1 ≤ (ofMarch y doy).month ∧ (ofMarch y doy).month ≤ 12) ∧
      (1 ≤ (ofMarch y doy).day ∧ (ofMarch y doy).day ≤ daysInMonth (ofMarch y doy).year (ofMarch y doy).month) ∧
      (ofMarch y doy).dayNumber = yearStart y + doy from ⟨⟨hparts.1, hparts.2.1⟩, hparts.2.2⟩
  unfold dayNumber marchYear marchMonth ofMarch
  rw [hmp]
  interval_cases mp <;> simp [monthStart, daysInMonth] <;> omega

end Date
end Gregorian
