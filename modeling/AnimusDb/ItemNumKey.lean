import AnimusDb.ItemNumber
import Mathlib.Data.UInt

/-! The byte encoding of number keys. A number text is reduced to its sign, its decimal exponent and
its significant digits, which are then laid out in bytes. What is read of a text is a numeral, and
its canonical form has the value that the numeral denotes. -/

open RustText DecimalDigits List Option

namespace AnimusDb.Items

/-- `i64::MAX`. -/
def i64Max : Int := 2 ^ 63 - 1

def checkedAdd (a b : Int) : Option Int :=
  if -2 ^ 63 ≤ a + b ∧ a + b ≤ i64Max then some (a + b) else none

/-- `str::parse::<i64>` of a nonempty run of digits. -/
def parseI64 (s : Text) : Option Int :=
  if (number (digitsOf s) : Int) ≤ i64Max then some (number (digitsOf s)) else none

def splitSign : Text → Bool × Text
  | '-' :: rest => (true, rest)
  | '+' :: rest => (false, rest)
  | rest => (false, rest)

/-- The digits after a point, if there is one, and what follows them. -/
def scanFraction : Text → Text × Text
  | '.' :: rest => (rest.takeWhile Char.isDigit, rest.dropWhile Char.isDigit)
  | rest => ([], rest)

/-- The exponent, if there is one, and what follows it. -/
def scanExponent : Text → Option (Int × Text)
  | [] => some (0, [])
  | c :: rest =>
    if c == 'e' || c == 'E' then
      let (expNeg, rest) := splitSign rest
      let expText := rest.takeWhile Char.isDigit
      if expText.isEmpty then none
      else do
        let magnitude ← parseI64 expText
        some (if expNeg then -magnitude else magnitude, rest.dropWhile Char.isDigit)
    else some (0, c :: rest)

/-- The first half of `canonicalize`: the sign, the digits before and after the point, and the
exponent of a number text. -/
def scanNumber (n : Text) : Option (Bool × Text × Text × Int) :=
  let s := trim n
  if s.isEmpty then none
  else
    let (neg, s) := splitSign s
    let int := s.takeWhile Char.isDigit
    let (frac, rest) := scanFraction (s.dropWhile Char.isDigit)
    if int.isEmpty && frac.isEmpty then none
    else do
      let (expShift, rest) ← scanExponent rest
      if rest.isEmpty then some (neg, int, frac, expShift) else none

/-- Skip leading zeros, moving the point with each. -/
def skipZeros : Text → Int → Option (Text × Int)
  | '0' :: rest, pointPos => do skipZeros rest (← checkedAdd pointPos (-1))
  | s, pointPos => some (s, pointPos)

/-- The second half of `canonicalize`: the position of the point and the significant digits. -/
def canonicalForm (neg : Bool) (int frac : Text) (expShift : Int) : Option (Bool × Int × List Nat) := do
  let pointPos ← checkedAdd int.length expShift
  let (s, pointPos) ← skipZeros (int ++ frac) pointPos
  let digits := digitsOf (trimEndMatches '0' s)
  if digits.isEmpty then some (false, 0, []) else some (neg, pointPos, digits)

def canonicalize (n : Text) : Option (Bool × Int × List Nat) := do
  let (neg, int, frac, expShift) ← scanNumber n
  canonicalForm neg int frac expShift

def bias : Int := 1024

def classNegative : UInt8 := 0x02

def classZero : UInt8 := 0x03

def classPositive : UInt8 := 0x04

def terminator : UInt8 := 0x00

/-- `u16::try_from` of the biased exponent. -/
def biasedExponent (exp : Int) : Option Nat := do
  let biased ← checkedAdd exp bias
  if 0 ≤ biased ∧ biased ≤ 65535 then some biased.toNat else none

/-- One byte for each digit, and the terminator behind them. -/
def digitBytes (digits : List Nat) : List UInt8 :=
  digits.map (fun d => UInt8.ofNat (d + 1)) ++ [terminator]

/-- The bytes after the class byte, before they are inverted: the biased exponent, the digits, the
terminator. -/
def magnitudeBytes (biased : Nat) (digits : List Nat) : List UInt8 :=
  UInt8.ofNat (biased / 256) :: UInt8.ofNat (biased % 256) :: digitBytes digits

def encode (n : Text) : Option (List UInt8) := do
  let (neg, exp, digits) ← canonicalize n
  if digits.isEmpty then some [classZero]
  else
    let biased ← biasedExponent exp
    let out := magnitudeBytes biased digits
    if neg then some (classNegative :: out.map (~~~ ·)) else some (classPositive :: out)

def maxSignificantDigits : Nat := 38

def encodeChecked (n : Text) : Option (List UInt8) := do
  let (_, _, digits) ← canonicalize n
  if maxSignificantDigits < digits.length then none else encode n

/-- Plain fixed-point text. -/
def render (neg : Bool) (exp : Int) (digits : List Nat) : Text :=
  let digitStr := digits.map charOf
  let sign : Text := if neg then ['-'] else []
  let len : Int := digits.length
  if exp ≤ 0 then sign ++ ('0' :: '.' :: (replicate (-exp).toNat '0' ++ digitStr))
  else if len ≤ exp then sign ++ (digitStr ++ replicate (exp - len).toNat '0')
  else sign ++ (digitStr.take exp.toNat ++ '.' :: digitStr.drop exp.toNat)

/-- The digits of an encoded number, each byte one above its digit. -/
def decodeDigits : List UInt8 → Option (List Nat)
  | [] => some []
  | b :: rest =>
    if 1 ≤ b ∧ b ≤ 10 then do
      let digits ← decodeDigits rest
      some ((b - 1).toNat :: digits)
    else none

def decode (bytes : List UInt8) : Option Text :=
  match bytes with
  | [] => none
  | cls :: rest =>
    if cls = classZero then if rest.isEmpty then some ['0'] else none
    else if cls = classNegative ∨ cls = classPositive then
      let neg := decide (cls = classNegative)
      -- `invert` of the source, on all remaining bytes at once
      let field := if neg then rest.map (~~~ ·) else rest
      match field with
      | expHi :: expLo :: digitField =>
        let exp : Int := (expHi.toNat * 256 + expLo.toNat : Nat) - bias
        match digitField.findIdx? (· == terminator) with
        | none => none
        | some termPos =>
          if termPos + 1 ≠ digitField.length then none
          else if termPos = 0 then none
          else do
            let digits ← decodeDigits (digitField.take termPos)
            some (render neg exp digits)
      | _ => none
    else none

def isEncoded (bytes : List UInt8) : Bool := (decode bytes).isSome

theorem splitSign_signText (sign : Option Bool) {rest : Text} (h : Stops (fun c => c == '-' || c == '+') rest) :
    splitSign (signText sign ++ rest) = (sign == some true, rest) := by
  rcases sign with _ | _ | _
  · cases rest with
    | nil => rfl
    | cons c rest =>
      have hc := h c (by simp)
      simp only [Bool.or_eq_false_iff, beq_eq_false_iff_ne] at hc
      change splitSign (c :: rest) = (false, c :: rest)
      unfold splitSign
      split
      · rename_i heq
        cases heq
        exact absurd rfl hc.1
      · rename_i heq
        cases heq
        exact absurd rfl hc.2
      · rfl
  · rfl
  · rfl

theorem exists_sign (s : Text) : ∃ sign, s = signText sign ++ (splitSign s).2 := by
  unfold splitSign
  split
  · exact ⟨some true, rfl⟩
  · exact ⟨some false, rfl⟩
  · exact ⟨none, rfl⟩

theorem stops_unsigned {rest : Text} (h : ∀ c ∈ rest.head?, c.isDigit = true ∨ c = '.') :
    Stops (fun c => c == '-' || c == '+') rest := by
  intro c hc
  rcases h c hc with hdigit | rfl
  · rw [Bool.or_eq_false_iff, beq_eq_false_iff_ne, beq_eq_false_iff_ne]
    constructor
    · rintro rfl
      cases hdigit
    · rintro rfl
      cases hdigit
  · rfl

theorem Exponent.scan (e : Exponent) :
    scanExponent e.text = (parseI64 e.digits).map fun _ => (e.shift, []) := by
  have hletter : (e.letter == 'e' || e.letter == 'E') = true := by
    rcases e.isLetter with h | h <;> rw [h] <;> rfl
  have hsign : splitSign (signText e.sign ++ e.digits) = (e.sign == some true, e.digits) :=
    splitSign_signText _ (stops_unsigned fun c hc => .inl (e.allDigits c (mem_of_mem_head? hc)))
  have htake := takeWhile_eq_self_iff.mpr e.allDigits
  have hdrop := dropWhile_eq_nil_iff.mpr e.allDigits
  have hne : e.digits.isEmpty = false := by simpa using e.nonempty
  unfold Exponent.text scanExponent
  simp only [hletter, if_true, hsign, htake, hdrop, hne, Bool.false_eq_true, if_false]
  unfold parseI64
  split
  · rfl
  · rfl

variable (m : Numeral)

/-- What `scanExponent` makes of the numeral's exponent. -/
def Numeral.parsedShift : Option Int :=
  m.exponent.elim (some 0) fun e => (parseI64 e.digits).map fun _ => e.shift

theorem Numeral.parsedShift_eq {m : Numeral} {s : Int} (h : m.parsedShift = some s) : s = m.shift := by
  unfold parsedShift at h
  unfold shift
  cases hexp : m.exponent with
  | none =>
    rw [hexp] at h
    cases h
    rfl
  | some e =>
    rw [hexp] at h
    obtain ⟨_, -, rfl⟩ := map_eq_some_iff.mp h
    rfl

theorem Numeral.scan_exponentText : scanExponent m.exponentText = m.parsedShift.map fun s => (s, []) := by
  unfold exponentText parsedShift
  cases m.exponent with
  | none => rfl
  | some e =>
    change scanExponent e.text = ((parseI64 e.digits).map fun _ => e.shift).map fun s => (s, [])
    rw [e.scan, Option.map_map]
    rfl

theorem Numeral.scan_fracText :
    scanFraction (m.fracText ++ m.exponentText) = (m.decimals, m.exponentText) := by
  have hdigits := m.fracDigits
  have hstops := m.stops_exponentText
  unfold fracText decimals
  cases hfrac : m.frac with
  | none =>
    change scanFraction m.exponentText = ([], m.exponentText)
    unfold exponentText at hstops ⊢
    cases m.exponent with
    | none => rfl
    | some e =>
      change scanFraction (e.letter :: (signText e.sign ++ e.digits)) = _
      rcases e.isLetter with h | h <;> rw [h] <;>
        simp [scanFraction, Exponent.text, h]
  | some f =>
    rw [hfrac] at hdigits
    obtain ⟨htake, hdrop⟩ := scan_append hdigits hstops
    change ((f ++ m.exponentText).takeWhile Char.isDigit, (f ++ m.exponentText).dropWhile Char.isDigit) =
      (f, m.exponentText)
    exact Prod.ext htake hdrop

theorem Numeral.splitSign_body :
    splitSign m.body = (m.negative, m.int ++ (m.fracText ++ m.exponentText)) := by
  refine splitSign_signText _ (stops_unsigned fun c hc => ?_)
  rw [head?_append] at hc
  cases hint : m.int with
  | cons d rest =>
    rw [hint] at hc
    cases hc
    exact .inl (m.intDigits c (by simp [hint]))
  | nil =>
    rw [hint] at hc
    have hsome := m.someDigit
    unfold fracText at hc
    cases hfrac : m.frac with
    | none => simp [hint, hfrac] at hsome
    | some f =>
      rw [hfrac] at hc
      cases hc
      exact .inr rfl

theorem Numeral.isEmpty_digits : (m.int.isEmpty && m.decimals.isEmpty) = false := by
  have := m.someDigit
  unfold decimals
  rw [Bool.and_eq_false_iff, ← Bool.not_eq_true, ← Bool.not_eq_true, List.isEmpty_iff,
    List.isEmpty_iff, ← not_and_or, ← List.append_eq_nil_iff]
  exact this

theorem Numeral.scan_text : scanNumber m.text = m.parsedShift.map fun s =>
    (m.negative, m.int, m.decimals, s) := by
  obtain ⟨htake, hdrop⟩ := scan_append m.intDigits m.stops_afterInt
  have hbody : m.body.isEmpty = false := by simpa using m.body_ne_nil
  unfold scanNumber
  simp only [m.trim_text, hbody, Bool.false_eq_true, if_false, m.splitSign_body, htake, hdrop,
    m.scan_fracText, m.isEmpty_digits, m.scan_exponentText]
  cases m.parsedShift <;> rfl

theorem Numeral.canonicalize_plain {m : Numeral} (h : m.exponent = none) :
    canonicalize m.text = canonicalForm m.negative m.int m.decimals 0 := by
  unfold canonicalize
  rw [m.scan_text, parsedShift, h]
  rfl

/-- What is scanned to its end as an exponent is none or an exponent. -/
theorem exists_exponent {s : Text} {shift : Int} (h : scanExponent s = some (shift, [])) :
    ∃ e : Option Exponent, s = e.elim [] Exponent.text := by
  unfold scanExponent at h
  split at h
  · exact ⟨none, rfl⟩
  · rename_i c rest
    split at h
    · rename_i hletter
      dsimp only at h
      split at h
      · cases h
      · rename_i hne
        obtain ⟨_, -, hdrop⟩ := bind_eq_some_iff.mp h
        simp only [some.injEq, Prod.mk.injEq] at hdrop
        obtain ⟨sign, hsign⟩ := exists_sign rest
        have hall := dropWhile_eq_nil_iff.mp hdrop.2
        refine ⟨some ⟨c, sign, (splitSign rest).2, by simpa using hletter, hall, ?_⟩, ?_⟩
        · intro hnil
          rw [hnil] at hne
          exact hne rfl
        · change c :: rest = c :: (signText sign ++ (splitSign rest).2)
          rw [← hsign]
    · cases h

theorem exists_fraction (s : Text) : ∃ frac : Option Text,
    s = frac.elim [] (fun f => '.' :: f) ++ (scanFraction s).2 ∧ (scanFraction s).1 = frac.getD [] ∧
      AllDigits (frac.getD []) := by
  unfold scanFraction
  split
  · rename_i rest
    refine ⟨some (rest.takeWhile Char.isDigit), ?_, rfl, fun c hc => mem_takeWhile_imp hc⟩
    rw [elim_some, cons_append, takeWhile_append_dropWhile]
  · exact ⟨none, rfl, rfl, isDigit_of_all rfl⟩

theorem exists_numeral {n : Text} {parts : Bool × Text × Text × Int}
    (h : scanNumber n = some parts) : ∃ m : Numeral, m.text = n := by
  obtain ⟨before, after, hn, hbefore, hafter⟩ := exists_around n
  obtain ⟨sign, hsign⟩ := exists_sign (trim n)
  unfold scanNumber at h
  dsimp only at h
  split at h
  · cases h
  generalize hbody : (splitSign (trim n)).2 = body at h hsign
  have hint := takeWhile_append_dropWhile (p := Char.isDigit) (l := body)
  split at h
  · cases h
  rename_i hsome
  obtain ⟨⟨shift, rest⟩, hexp, h⟩ := bind_eq_some_iff.mp h
  split at h
  swap
  · cases h
  rename_i hrest
  have hrest : rest = [] := by simpa using hrest
  subst hrest
  -- the fraction, if there is a point, and the exponent behind it
  obtain ⟨frac, htail, hfrac, hdigits⟩ := exists_fraction (body.dropWhile Char.isDigit)
  rw [hfrac] at hsome
  obtain ⟨e, he⟩ := exists_exponent hexp
  refine ⟨⟨before, sign, body.takeWhile Char.isDigit, frac, e, after, hbefore, hafter, fun c hc =>
    mem_takeWhile_imp hc, hdigits, ?_⟩, ?_⟩
  · rw [Bool.and_eq_true, List.isEmpty_iff, List.isEmpty_iff, ← List.append_eq_nil_iff] at hsome
    exact hsome
  · change before ++ (signText sign ++ (_ ++ (frac.elim [] _ ++ e.elim [] _))) ++ after = n
    rw [← he, ← htail, hint, ← hsign]
    exact hn.symm

/-- What `canonicalize` returns: significant digits without zeros around them, and no sign or exponent
where there are none. -/
structure Canonical (neg : Bool) (exp : Int) (ds : List Nat) : Prop where
  digits : Digits ds
  leads : Leads ds
  trimmed : Trimmed ds
  zero : ds = [] → neg = false ∧ exp = 0

def canonicalValue (neg : Bool) (exp : Int) (ds : List Nat) : ℚ :=
  signed neg (fraction ds * 10 ^ exp)

theorem skipZeros_spec {s t : Text} {p q : Int} (h : skipZeros s p = some (t, q)) :
    ∃ k : Nat, s = replicate k '0' ++ t ∧ q = p - k ∧ t.head? ≠ some '0' := by
  induction s generalizing p with
  | nil =>
    cases h
    exact ⟨0, rfl, by simp, by simp⟩
  | cons c rest ih =>
    by_cases hc : c = '0'
    · subst hc
      obtain ⟨p', hp, h⟩ := bind_eq_some_iff.mp h
      obtain ⟨k, hs, hq, hhead⟩ := ih h
      unfold checkedAdd at hp
      split at hp
      · cases hp
        refine ⟨k + 1, ?_, ?_, hhead⟩
        · rw [hs, replicate_succ, cons_append]
        · push_cast
          omega
      · cases hp
    · unfold skipZeros at h
      split at h
      · rename_i heq
        exact absurd (cons.inj heq).1 hc
      · cases h
        exact ⟨0, rfl, by simp, by simpa using hc⟩

/-- The zeros at the end of a text are no part of its trimmed fraction. -/
theorem length_trimEnd_le {int frac t : Text} {j : Nat} (h : int ++ frac = t ++ replicate j '0') :
    (trimEndMatches '0' frac).length ≤ frac.length - j := by
  have hsuffix : frac.drop (frac.length - j) <:+ replicate j '0' :=
    suffix_of_suffix_length_le ((drop_suffix _ _).trans (h ▸ suffix_append int frac)) (suffix_append t _)
      (by rw [length_drop, length_replicate]; omega)
  have hzeros : ∀ c ∈ (frac.drop (frac.length - j)).reverse, (c == '0') = true := fun c hc =>
    beq_iff_eq.mpr (eq_of_mem_replicate (hsuffix.subset (mem_reverse.mp hc)))
  rw [trimEndMatches, rdropWhile, length_reverse]
  nth_rewrite 1 [← take_append_drop (frac.length - j) frac]
  rw [reverse_append, dropWhile_append_of_pos hzeros]
  exact (dropWhile_sublist _).length_le.trans (by simp)

theorem map_digitOf_ne {c? : Option Char} (hdigit : ∀ c ∈ c?, c.isDigit = true) (h : c? ≠ some '0') :
    c?.map digitOf ≠ some 0 := by
  intro hzero
  obtain ⟨c, hc, hzero⟩ := map_eq_some_iff.mp hzero
  rw [(digitOf_eq_zero (hdigit c hc)).mp hzero] at hc
  exact h hc

theorem canonicalForm_spec {neg neg' : Bool} {int frac : Text} {shift e : Int} {ds : List Nat}
    (hint : AllDigits int) (hfrac : AllDigits frac) (h : canonicalForm neg int frac shift = some (neg', e, ds)) :
    Canonical neg' e ds ∧ canonicalValue neg' e ds =
      signed neg (number (digitsOf (int ++ frac)) * 10 ^ (shift - frac.length)) ∧
      (trimEndMatches '0' frac).length ≤ (ds.length + shift - e).toNat := by
  obtain ⟨p, hp, h⟩ := bind_eq_some_iff.mp h
  obtain ⟨⟨s, q⟩, hs, h⟩ := bind_eq_some_iff.mp h
  dsimp only at h
  unfold checkedAdd at hp
  split at hp
  swap
  · cases hp
  cases hp
  obtain ⟨k, htext, rfl, hhead⟩ := skipZeros_spec hs
  obtain ⟨j, hsplit, hlast⟩ := exists_trimEndMatches '0' s
  generalize trimEndMatches '0' s = t at h hsplit hlast
  subst hsplit
  have hall : AllDigits t := by
    intro c hc
    have hmem : c ∈ int ++ frac := by
      rw [htext]
      simp [hc]
    exact (hint.append hfrac) c hmem
  have hnumber : number (digitsOf (int ++ frac)) = number (digitsOf t) * 10 ^ j := by
    rw [htext, digitsOf_append, digitsOf_append, digitsOf_replicate, digitsOf_replicate, number_zeros_append,
      number_append_zeros]
  have hlength : int.length + frac.length = k + t.length + j := by
    have := congrArg length htext
    simp only [length_append, length_replicate] at this
    omega
  split at h
  · rename_i hempty
    cases h
    have hnil : t = [] := by simpa [digitsOf] using hempty
    refine ⟨⟨by simp [Digits], by simp [Leads], by simp [Trimmed], fun _ => ⟨rfl, rfl⟩⟩, ?_, ?_⟩
    · rw [hnumber, hnil]
      simp [canonicalValue, digitsOf]
    · rw [hnil, nil_append, ← replicate_add] at htext
      have hle := length_trimEnd_le (t := []) htext
      rw [hnil] at hlength
      simp only [length_nil] at hlength ⊢
      omega
  · rename_i hne
    cases h
    have hne : t ≠ [] := by
      intro hnil
      rw [hnil] at hne
      exact hne rfl
    have hlen : (digitsOf t).length = t.length := length_map ..
    refine ⟨⟨digitsOf_digits hall, ?_, ?_, fun hnil => absurd (map_eq_nil_iff.mp hnil) hne⟩, ?_, ?_⟩
    · -- the first digit is not zero, since the zeros in front were skipped
      rw [head?_append_of_ne_nil _ hne] at hhead
      rw [Leads, digitsOf, head?_map]
      exact map_digitOf_ne (fun c hc => hall c (mem_of_mem_head? hc)) hhead
    · rw [Trimmed, digitsOf, getLast?_map]
      exact map_digitOf_ne (fun c hc => hall c (mem_of_getLast? hc)) hlast
    · unfold canonicalValue fraction
      rw [hnumber]
      congr 1
      have hten : (10 : ℚ) ≠ 0 := by norm_num
      rw [hlen, div_eq_mul_inv, ← zpow_natCast, ← zpow_neg, mul_assoc, ← zpow_add₀ hten]
      push_cast
      rw [mul_assoc, ← zpow_natCast, ← zpow_add₀ hten]
      congr 2
      omega
    · rw [← append_assoc] at htext
      have hle := length_trimEnd_le htext
      rw [hlen]
      omega

/-- The canonical form of a text that denotes a number has that value. -/
theorem canonicalize_spec {n : Text} {neg : Bool} {e : Int} {ds : List Nat}
    (h : canonicalize n = some (neg, e, ds)) :
    Canonical neg e ds ∧ (∃ v, Denotes n v) ∧ ∀ v, Denotes n v → v = canonicalValue neg e ds := by
  obtain ⟨parts, hscan, h⟩ := bind_eq_some_iff.mp h
  have hany (m : Numeral) (hm : m.text = n) : Canonical neg e ds ∧ canonicalValue neg e ds = m.value := by
    have hparts := m.scan_text
    rw [hm, hscan] at hparts
    obtain ⟨s, hs, heq⟩ := map_eq_some_iff.mp hparts.symm
    subst heq
    obtain ⟨hcanonical, hvalue, -⟩ := canonicalForm_spec m.intDigits m.fracDigits h
    refine ⟨hcanonical, hvalue.trans ?_⟩
    rw [m.parsedShift_eq hs]
    rfl
  obtain ⟨m, hm⟩ := exists_numeral hscan
  refine ⟨(hany m hm).1, ⟨m.value, m, hm, rfl⟩, ?_⟩
  rintro v ⟨m', hm', rfl⟩
  exact (hany m' hm').2.symm

end AnimusDb.Items
