import AnimusDb.DecimalDigits
import AnimusDb.RustText

/-! Number texts and what they denote. A numeral is a text of the accepted grammar with its parts
named; its value is the exact rational number that the parts denote. -/

open RustText DecimalDigits List

namespace AnimusDb.Items

/-- A sign as it stands in a text: absent, `+` or `-`. -/
def signText : Option Bool → Text
  | none => []
  | some false => ['+']
  | some true => ['-']

def signed (neg : Bool) (q : ℚ) : ℚ := if neg then -q else q

structure Exponent where
  letter : Char
  sign : Option Bool
  digits : Text
  isLetter : letter = 'e' ∨ letter = 'E'
  allDigits : ∀ c ∈ digits, c.isDigit = true
  nonempty : digits ≠ []

def Exponent.text (e : Exponent) : Text := e.letter :: (signText e.sign ++ e.digits)

def Exponent.magnitude (e : Exponent) : Nat := number (digitsOf e.digits)

def Exponent.shift (e : Exponent) : ℤ := if e.sign == some true then -e.magnitude else e.magnitude

/-- A text of the accepted grammar: white space around an optional sign, digits with an optional
point among them, and an optional exponent. -/
structure Numeral where
  before : Text
  sign : Option Bool
  int : Text
  frac : Option Text
  exponent : Option Exponent
  after : Text
  beforeBlank : ∀ c ∈ before, isWhitespace c = true
  afterBlank : ∀ c ∈ after, isWhitespace c = true
  intDigits : ∀ c ∈ int, c.isDigit = true
  fracDigits : ∀ c ∈ frac.getD [], c.isDigit = true
  someDigit : int ++ frac.getD [] ≠ []

namespace Numeral

variable (m : Numeral)

/-- The digits after the point. -/
def decimals : Text := m.frac.getD []

def fracText : Text := m.frac.elim [] fun f => '.' :: f

def exponentText : Text := m.exponent.elim [] Exponent.text

/-- The text without the white space around it. -/
def body : Text := signText m.sign ++ (m.int ++ (m.fracText ++ m.exponentText))

def text : Text := m.before ++ m.body ++ m.after

def negative : Bool := m.sign == some true

def shift : ℤ := m.exponent.elim 0 Exponent.shift

/-- The exact value of a numeral. -/
def value : ℚ :=
  signed m.negative (number (digitsOf (m.int ++ m.decimals)) * 10 ^ (m.shift - m.decimals.length))

end Numeral

/-- The text denotes the number. -/
def Denotes (t : Text) (v : ℚ) : Prop := ∃ m : Numeral, m.text = t ∧ m.value = v

@[simp] theorem signed_true (q : ℚ) : signed true q = -q := rfl

@[simp] theorem signed_false (q : ℚ) : signed false q = q := rfl

@[simp] theorem signed_zero (neg : Bool) : signed neg 0 = 0 := by cases neg <;> simp

theorem signed_not (neg : Bool) (q : ℚ) : signed (!neg) q = -signed neg q := by
  cases neg <;> simp

theorem digitsOf_digits {s : Text} (h : ∀ c ∈ s, c.isDigit = true) : Digits (digitsOf s) := by
  intro d hd
  obtain ⟨c, hc, rfl⟩ := mem_map.mp hd
  exact digitOf_lt (h c hc)

theorem signText_visible (sign : Option Bool) : ∀ c ∈ signText sign, isWhitespace c = false := by
  have hall : (signText sign).all (fun c => !isWhitespace c) = true := by
    rcases sign with _ | _ | _ <;> rfl
  intro c hc
  simpa using all_eq_true.mp hall c hc

theorem Exponent.text_visible (e : Exponent) : ∀ c ∈ e.text, isWhitespace c = false := by
  intro c hc
  rcases mem_cons.mp hc with rfl | hc
  · rcases e.isLetter with h | h <;> rw [h] <;> rfl
  · rcases mem_append.mp hc with hc | hc
    · exact signText_visible _ c hc
    · exact isWhitespace_digit (e.allDigits c hc)

variable (m : Numeral)

theorem Numeral.fracText_visible : ∀ c ∈ m.fracText, isWhitespace c = false := by
  intro c hc
  have hdigits := m.fracDigits
  unfold fracText at hc
  cases hfrac : m.frac with
  | none => simp [hfrac] at hc
  | some f =>
    rw [hfrac] at hc hdigits
    rcases mem_cons.mp hc with rfl | hc
    · rfl
    · exact isWhitespace_digit (hdigits c hc)

theorem Numeral.body_visible : ∀ c ∈ m.body, isWhitespace c = false := by
  intro c hc
  simp only [body, mem_append] at hc
  rcases hc with hc | hc | hc | hc
  · exact signText_visible _ c hc
  · exact isWhitespace_digit (m.intDigits c hc)
  · exact m.fracText_visible c hc
  · unfold exponentText at hc
    cases hexp : m.exponent with
    | none => simp [hexp] at hc
    | some e =>
      rw [hexp] at hc
      exact e.text_visible c hc

theorem Numeral.body_ne_nil : m.body ≠ [] := by
  intro hnil
  simp only [body, append_eq_nil_iff] at hnil
  obtain ⟨-, hint, hfrac, -⟩ := hnil
  refine m.someDigit ?_
  unfold fracText at hfrac
  cases h : m.frac with
  | none => simp [hint]
  | some f => simp [h] at hfrac

theorem Numeral.trim_text : trim m.text = m.body := by
  have hvisible := m.body_visible
  obtain ⟨c, rest, hbody⟩ := exists_cons_of_ne_nil m.body_ne_nil
  rw [text, trim, hbody, append_assoc, cons_append]
  rw [hbody] at hvisible
  rw [dropWhile_append_stop m.beforeBlank (hvisible c mem_cons_self), ← cons_append]
  exact rdropWhile_append_all m.afterBlank fun c hc => hvisible c (mem_of_getLast? hc)

theorem Numeral.stops_exponentText : Stops Char.isDigit m.exponentText := by
  unfold exponentText
  cases m.exponent with
  | none => exact .nil
  | some e =>
    refine .cons ?_
    rcases e.isLetter with h | h <;> rw [h] <;> rfl

/-- What follows the digits before the point stops a scan over digits. -/
theorem Numeral.stops_afterInt : Stops Char.isDigit (m.fracText ++ m.exponentText) := by
  have hexponent := m.stops_exponentText
  unfold fracText
  cases m.frac with
  | some f => exact .cons rfl
  | none => exact hexponent

/-- The numeral of a plain text without white space. -/
theorem exists_plain_numeral (neg : Bool) {int frac : Text} (hint : AllDigits int) (hfrac : AllDigits frac)
    (hsome : int ++ frac ≠ []) : ∃ m : Numeral, m.exponent = none ∧ m.negative = neg ∧ m.int = int ∧
    m.decimals = frac ∧
      m.text = (if neg then ['-'] else []) ++ (if frac.isEmpty then int else int ++ '.' :: frac) := by
  have hdecimals : (if frac.isEmpty then none else some frac).getD [] = frac := by cases frac <;> rfl
  refine ⟨⟨[], if neg then some true else none, int, if frac.isEmpty then none else some frac, none,
    [], by simp, by simp,
    hint, hdecimals.symm ▸ hfrac, hdecimals.symm ▸ hsome⟩, rfl, by cases neg <;> rfl, rfl, hdecimals, ?_⟩
  cases neg <;> cases frac <;> simp [Numeral.text, Numeral.body, Numeral.fracText, Numeral.exponentText, signText]

end AnimusDb.Items
