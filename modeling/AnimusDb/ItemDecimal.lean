import AnimusDb.ItemNumKey

/-! Comparing and adding number texts digit by digit. This code has a parser of its own, which reads
plain decimal texts only; on those it computes with the exact values. -/

open RustText DecimalDigits List

namespace AnimusDb.Items

/-- The sign, the digits before the point and the digits after it. -/
def decimalParts (v : Text) : Option (Bool × Text × Text) :=
  let (neg, rest) := splitSign (trim v)
  let (int, frac) := (splitOnce '.' rest).getD (rest, [])
  if int.isEmpty && frac.isEmpty then none
  else if (int ++ frac).all Char.isDigit then some (neg, int, frac)
  else none

/-- The `parts` of `compare_numeric`: those of `decimal_parts` without the zeros around them, and
without the sign of a zero. -/
def compareParts (v : Text) : Option (Bool × Text × Text) := do
  let (neg, int, frac) ← decimalParts v
  let int := trimStartMatches '0' int
  let frac := trimEndMatches '0' frac
  some (neg && !(int.isEmpty && frac.isEmpty), int, frac)

/-- The order of two magnitudes; the fractions are padded only where the rest is equal. -/
def compareMagnitude (xi xf yi yf : Text) : Except FormatPanic Ordering :=
  match (compare xi.length yi.length).then (compare xi yi) with
  | .eq => do
      let width := max xf.length yf.length
      let xp ← padEnd width xf
      let yp ← padEnd width yf
      .ok (compare xp yp)
  | order => .ok order

def compareNumeric (x y : Text) : Except FormatPanic (Option Ordering) :=
  match compareParts x, compareParts y with
  | some (xn, xi, xf), some (yn, yi, yf) =>
    if xn != yn then .ok (some (if xn then .lt else .gt))
    else do
      let magnitude ← compareMagnitude xi xf yi yf
      .ok (some (if xn then magnitude.swap else magnitude))
  | _, _ => .ok none

/-- Compare two equal-scale digit strings by magnitude. -/
def cmpDigits (a b : Text) : Ordering :=
  let a := trimStartMatches '0' a
  let b := trimStartMatches '0' b
  (compare a.length b.length).then (compare a b)

/-- The digits of two strings from their ends, with zeros where one has run out. -/
def digitPairs (a b : Text) : List (Nat × Nat) :=
  zipWithAll (fun x y => (x.elim 0 digitOf, y.elim 0 digitOf)) a.reverse b.reverse

/-- The loop of `add_digits`, from the last digits on. -/
def addLoop : List (Nat × Nat) → Nat → Text
  | [], carry => if carry = 0 then [] else [charOf (carry % 10)]
  | (x, y) :: rest, carry =>
    let sum := x + y + carry
    charOf (sum % 10) :: addLoop rest (sum / 10)

/-- Schoolbook addition over digit strings. -/
def addDigits (a b : Text) : Text := (addLoop (digitPairs a b) 0).reverse

/-- The loop of `sub_digits`, from the last digits on. -/
def subLoop : List (Nat × Nat) → Nat → Text
  | [], _ => []
  | (x, y) :: rest, borrow =>
    if x < y + borrow then charOf (x + 10 - (y + borrow)) :: subLoop rest 1
    else charOf (x - (y + borrow)) :: subLoop rest 0

/-- Schoolbook subtraction. -/
def subDigits (a b : Text) : Text :=
  let s := trimStartMatches '0' (subLoop (digitPairs a b) 0).reverse
  if s.isEmpty then ['0'] else s

/-- The sign and the digits of a sum of two scaled integers. -/
def addScaled (xn : Bool) (xd : Text) (yn : Bool) (yd : Text) : Bool × Text :=
  if xn == yn then (xn, addDigits xd yd)
  else
    match cmpDigits xd yd with
    | .eq => (false, ['0'])
    | .gt => (xn, subDigits xd yd)
    | .lt => (yn, subDigits yd xd)

/-- The text of a scaled integer: the point goes `scale` digits from the right. -/
def insertPoint (neg : Bool) (digits : Text) (scale : Nat) : Text :=
  let split := digits.length - scale
  let int := trimStartMatches '0' (digits.take split)
  let frac := trimEndMatches '0' (digits.drop split)
  let int := if int.isEmpty then ['0'] else int
  let sign : Text := if neg && !(int == ['0'] && frac.isEmpty) then ['-'] else []
  if frac.isEmpty then sign ++ int else sign ++ (int ++ '.' :: frac)

/-- Zeros in front, so that a digit stands before the point. -/
def padInteger (scale : Nat) (digits : Text) : Except FormatPanic Text :=
  if digits.length ≤ scale then padStart (scale + 1) digits else .ok digits

def addNumeric (x y : Text) : Except FormatPanic (Option Text) :=
  match decimalParts x, decimalParts y with
  | some (xn, xi, xf), some (yn, yi, yf) => do
      let scale := max xf.length yf.length
      let xw ← padEnd scale xf
      let yw ← padEnd scale yf
      let (neg, digits) := addScaled xn (xi ++ xw) yn (yi ++ yw)
      let digits ← padInteger scale digits
      .ok (some (insertPoint neg digits scale))
  | _, _ => .ok none

def negateNumeric (x : Text) : Except FormatPanic (Option Text) :=
  match decimalParts x with
  | some (neg, int, frac) =>
    let sign : Text := if neg then [] else ['-']
    let flipped := if frac.isEmpty then sign ++ int else sign ++ (int ++ '.' :: frac)
    addNumeric ['0'] flipped
  | none => .ok none

variable {m : Numeral} {s : Text}

/-- The numeral has no exponent. -/
def Numeral.Plain (m : Numeral) : Prop := m.exponent = none

theorem Numeral.Plain.decimalParts (h : m.Plain) :
    decimalParts m.text = some (m.negative, m.int, m.decimals) := by
  have hpoint : ∀ c ∈ m.int, c ≠ '.' := by
    rintro c hc rfl
    cases m.intDigits _ hc
  have hsplit : (splitOnce '.' (m.int ++ (m.fracText ++ m.exponentText))).getD
      (m.int ++ (m.fracText ++ m.exponentText), []) = (m.int, m.decimals) := by
    unfold Numeral.exponentText Numeral.fracText Numeral.decimals
    rw [show m.exponent = none from h, Option.elim_none, append_nil]
    cases m.frac with
    | none =>
      rw [Option.elim_none, append_nil, splitOnce_none hpoint]
      rfl
    | some f =>
      rw [Option.elim_some, splitOnce_append hpoint]
      rfl
  have hall : (m.int ++ m.decimals).all Char.isDigit = true := by
    rw [all_append, Bool.and_eq_true, all_eq_true, all_eq_true]
    exact ⟨m.intDigits, m.fracDigits⟩
  unfold Items.decimalParts
  simp only [m.trim_text, m.splitSign_body, hsplit, m.isEmpty_digits, hall, Bool.false_eq_true, if_false, if_true]

/-- The value of digits before and after the point. -/
def magnitude (int frac : Text) : ℚ := number (digitsOf int) + fraction (digitsOf frac)

theorem magnitude_nonneg (int frac : Text) : 0 ≤ magnitude int frac :=
  add_nonneg (Nat.cast_nonneg _) (fraction_nonneg _)

/-- The value of a plain decimal. -/
def decimalValue (neg : Bool) (int frac : Text) : ℚ :=
  signed neg (number (digitsOf int) + fraction (digitsOf frac))

theorem Numeral.Plain.value (h : m.Plain) : m.value = decimalValue m.negative m.int m.decimals := by
  unfold Numeral.value decimalValue Numeral.shift
  rw [show m.exponent = none from h, Option.elim_none, digitsOf_append, number_append_eq, zero_sub, zpow_neg,
    zpow_natCast]
  congr 1
  have hlen : (digitsOf m.decimals).length = m.decimals.length := length_map ..
  rw [hlen]
  field_simp

theorem number_trimStart (s : Text) : number (digitsOf (trimStartMatches '0' s)) = number (digitsOf s) := by
  obtain ⟨k, hs, -⟩ := exists_trimStartMatches '0' s
  nth_rewrite 2 [hs]
  rw [digitsOf_append, digitsOf_replicate, number_zeros_append]

theorem fraction_trimEnd (s : Text) : fraction (digitsOf (trimEndMatches '0' s)) = fraction (digitsOf s) := by
  obtain ⟨k, hs, -⟩ := exists_trimEndMatches '0' s
  nth_rewrite 2 [hs]
  rw [digitsOf_append, digitsOf_replicate, fraction_append_zeros]

theorem allDigits_trimStart (h : AllDigits s) : AllDigits (trimStartMatches '0' s) :=
  fun c hc => h c ((dropWhile_sublist _).subset hc)

theorem allDigits_trimEnd (h : AllDigits s) : AllDigits (trimEndMatches '0' s) :=
  fun c hc => h c (( rdropWhile_prefix _ _).subset hc)

theorem allDigits_reverse (h : AllDigits s) : AllDigits s.reverse :=
  fun c hc => h c (mem_reverse.mp hc)

theorem leads_trimStart (h : AllDigits s) : Leads (digitsOf (trimStartMatches '0' s)) := by
  obtain ⟨-, -, hhead⟩ := exists_trimStartMatches '0' s
  rw [Leads, digitsOf, head?_map]
  exact map_digitOf_ne (fun c hc => allDigits_trimStart h c (mem_of_mem_head? hc)) hhead

theorem trimmed_trimEnd (h : AllDigits s) : Trimmed (digitsOf (trimEndMatches '0' s)) := by
  obtain ⟨-, -, hlast⟩ := exists_trimEndMatches '0' s
  rw [Trimmed, digitsOf, getLast?_map]
  exact map_digitOf_ne (fun c hc => allDigits_trimEnd h c (mem_of_getLast? hc)) hlast

variable {k : Numeral}

theorem compare_char {c d : Char} (hc : c.isDigit = true) (hd : d.isDigit = true) :
    compare c d = compare (digitOf c) (digitOf d) := by
  obtain ⟨hlow, -⟩ := isDigit_iff.mp hc
  obtain ⟨hlow', -⟩ := isDigit_iff.mp hd
  change 48 ≤ c.toNat at hlow
  change 48 ≤ d.toNat at hlow'
  have hlt : c < d ↔ digitOf c < digitOf d := by
    change c.toNat < d.toNat ↔ c.toNat - 48 < d.toNat - 48
    omega
  have heq : c = d ↔ digitOf c = digitOf d := ⟨fun h => by rw [h], digitOf_inj hc hd⟩
  change compareOfLessAndEq c d = compareOfLessAndEq (digitOf c) (digitOf d)
  unfold compareOfLessAndEq
  simp only [hlt, heq]

variable {t : Text}

theorem compare_digitsOf (hs : AllDigits s) (ht : AllDigits t) :
    compare s t = compare (digitsOf s) (digitsOf t) := by
  induction s generalizing t with
  | nil => cases t <;> rfl
  | cons c s ih =>
    cases t with
    | nil => rfl
    | cons d t =>
      change compare (c :: s) (d :: t) = compare (digitOf c :: digitsOf s) (digitOf d :: digitsOf t)
      rw [List.compare_cons_cons, List.compare_cons_cons, compare_char (hs c mem_cons_self) (ht d mem_cons_self),
        ih (fun x hx => hs x (mem_cons_of_mem _ hx)) fun x hx => ht x (mem_cons_of_mem _ hx)]

/-- Digit texts without zeros in front are ordered by their length and then by their digits. -/
theorem compare_texts (hs : AllDigits s) (ht : AllDigits t) (hls : Leads (digitsOf s)) (hlt : Leads (digitsOf t)) :
    (compare s.length t.length).then (compare s t) = compare (number (digitsOf s)) (number (digitsOf t)) := by
  have hds := digitsOf_digits hs
  have hdt := digitsOf_digits ht
  rw [compare_digitsOf hs ht, ← then_eq_compare (number_lt_of_length_lt hds hlt)
    (number_lt_of_length_lt hdt hls) (compare_number hds hdt)]
  simp only [digitsOf, length_map]

variable {width : Nat}

theorem padEnd_eq (h : width ≤ maxWidth) (s : Text) :
    padEnd width s = .ok (s ++ replicate (width - s.length) '0') :=
  if_neg (not_lt.mpr h)

theorem padStart_eq (h : width ≤ maxWidth) (s : Text) :
    padStart width s = .ok (replicate (width - s.length) '0' ++ s) :=
  if_neg (not_lt.mpr h)

theorem le_of_padEnd (h : padEnd width s = .ok t) : width ≤ maxWidth := by
  unfold padEnd at h
  split at h
  · cases h
  · omega

theorem le_of_padStart (h : padStart width s = .ok t) : width ≤ maxWidth := by
  unfold padStart at h
  split at h
  · cases h
  · omega

/-- Padding a fraction to the common scale scales its numeral to an integer. -/
theorem number_widened {int frac : Text} {scale : Nat} (hle : frac.length ≤ scale) :
    (number (digitsOf (int ++ (frac ++ replicate (scale - frac.length) '0'))) : ℚ) =
    magnitude int frac * 10 ^ scale := by
  have hlen : (digitsOf (frac ++ replicate (scale - frac.length) '0')).length = scale := by
    simp [digitsOf]
    omega
  have happend := number_append_eq (digitsOf int) (digitsOf (frac ++ replicate (scale - frac.length) '0'))
  rw [hlen] at happend
  rw [digitsOf_append, happend]
  rw [magnitude, digitsOf_append, digitsOf_replicate, fraction_append_zeros]

theorem compare_padded {width : Nat} (hs : AllDigits s) (ht : AllDigits t) (hsw : s.length ≤ width)
    (htw : t.length ≤ width) :
    compare (s ++ replicate (width - s.length) '0') (t ++ replicate (width - t.length) '0') =
      compare (fraction (digitsOf s)) (fraction (digitsOf t)) := by
  have hpad (u : Text) (hu : u.length ≤ width) :
      (number (digitsOf (u ++ replicate (width - u.length) '0')) : ℚ) =
      fraction (digitsOf u) * 10 ^ width := by
    simpa [digitsOf, magnitude] using @number_widened [] u width hu
  have hpos : (0 : ℚ) < 10 ^ width := by positivity
  have hs' := hs.append (allDigits_zeros (width - s.length))
  have ht' := ht.append (allDigits_zeros (width - t.length))
  rw [compare_digitsOf hs' ht', compare_number (digitsOf_digits hs') (digitsOf_digits ht')
    (by simp [digitsOf]; omega),
    ← cmp_eq_compare, ← Nat.strictMono_cast.cmp_map_eq (β := ℚ), hpad s hsw, hpad t htw,
    (strictMono_mul_right_of_pos hpos).cmp_map_eq, cmp_eq_compare]

theorem compareMagnitude_eq {xi xf yi yf : Text} (hxi : AllDigits xi) (hxf : AllDigits xf)
    (hyi : AllDigits yi) (hyf : AllDigits yf) (hlx : Leads (digitsOf xi)) (hly : Leads (digitsOf yi))
    (hwx : xf.length ≤ maxWidth) (hwy : yf.length ≤ maxWidth) :
    compareMagnitude xi xf yi yf = .ok (compare (magnitude xi xf) (magnitude yi yf)) := by
  have hwidth : max xf.length yf.length ≤ maxWidth := max_le hwx hwy
  have hx0 := fraction_nonneg (digitsOf xf)
  have hx1 := fraction_lt_one (digitsOf_digits hxf)
  have hy0 := fraction_nonneg (digitsOf yf)
  have hy1 := fraction_lt_one (digitsOf_digits hyf)
  unfold compareMagnitude magnitude
  rw [compare_texts hxi hyi hlx hly]
  rcases lt_trichotomy (number (digitsOf xi)) (number (digitsOf yi)) with h | h | h
  · have : (number (digitsOf xi) : ℚ) + 1 ≤ number (digitsOf yi) := by exact_mod_cast h
    rw [compare_lt_iff_lt.mpr h, compare_lt_iff_lt.mpr (by linarith)]
  · rw [compare_eq_iff_eq.mpr h]
    dsimp only
    rw [padEnd_eq hwidth, padEnd_eq hwidth, h]
    change Except.ok (compare _ _) = _
    rw [compare_padded hxf hyf (le_max_left _ _) (le_max_right _ _)]
    congr 1
    exact compare_eq_compare (fun h => by linarith) (fun h => by linarith) fun h => by rw [h]
  · have : (number (digitsOf yi) : ℚ) + 1 ≤ number (digitsOf xi) := by exact_mod_cast h
    rw [compare_gt_iff_gt.mpr h, compare_gt_iff_gt.mpr (by linarith)]

/-- What `compare_numeric` reads of a plain decimal. -/
theorem Numeral.Plain.compareParts (h : m.Plain) : ∃ neg int frac, compareParts m.text =
      some (neg, int, frac) ∧ AllDigits int ∧ AllDigits frac ∧ Leads (digitsOf int) ∧
      frac = trimEndMatches '0' m.decimals ∧ m.value = decimalValue neg int frac ∧
        (neg = true → 0 < magnitude int frac) := by
  unfold Items.compareParts
  rw [h.decimalParts]
  refine ⟨_, _, _, rfl, allDigits_trimStart m.intDigits, allDigits_trimEnd m.fracDigits,
    leads_trimStart m.intDigits, rfl, ?_, ?_⟩
  · rw [h.value]
    unfold decimalValue
    rw [number_trimStart, fraction_trimEnd]
    by_cases hzero : ((trimStartMatches '0' m.int).isEmpty && (trimEndMatches '0' m.decimals).isEmpty) = true
    · have hparts := Bool.and_eq_true_iff.mp hzero
      rw [List.isEmpty_iff, List.isEmpty_iff] at hparts
      rw [← number_trimStart, ← fraction_trimEnd, hparts.1, hparts.2]
      simp [digitsOf]
    · rw [Bool.not_eq_true] at hzero
      rw [hzero, Bool.not_false, Bool.and_true]
  · intro hneg
    have hnonempty := (Bool.and_eq_true_iff.mp hneg).2
    rw [Bool.not_eq_true', Bool.and_eq_false_iff] at hnonempty
    unfold magnitude
    rcases hnonempty with hint | hfrac
    · have hne : trimStartMatches '0' m.int ≠ [] := by simpa using hint
      have hlead := leads_trimStart m.intDigits
      have hpos : 0 < number (digitsOf (trimStartMatches '0' m.int)) := by
        cases hd : digitsOf (trimStartMatches '0' m.int) with
        | nil => exact absurd (map_eq_nil_iff.mp hd) hne
        | cons d ds =>
          rw [hd] at hlead
          exact (Nat.pow_pos (by omega)).trans_le (pow_le_number hlead)
      have : (0 : ℚ) < number (digitsOf (trimStartMatches '0' m.int)) := by exact_mod_cast hpos
      have := fraction_nonneg (digitsOf (trimEndMatches '0' m.decimals))
      linarith
    · have hne : digitsOf (trimEndMatches '0' m.decimals) ≠ [] := by
        simpa [digitsOf] using hfrac
      have := fraction_pos hne (trimmed_trimEnd m.fracDigits)
      have : (0 : ℚ) ≤ number (digitsOf (trimStartMatches '0' m.int)) := by positivity
      linarith

/-- On plain decimals `compare_numeric` is the order of the values. -/
theorem Numeral.Plain.compareNumeric (hm : m.Plain) (hk : k.Plain)
    (hwm : (trimEndMatches '0' m.decimals).length ≤ maxWidth)
    (hwk : (trimEndMatches '0' k.decimals).length ≤ maxWidth) :
    compareNumeric m.text k.text = .ok (some (compare m.value k.value)) := by
  obtain ⟨xn, xi, xf, hx, hxi, hxf, hlx, rfl, hvx, hpx⟩ := hm.compareParts
  obtain ⟨yn, yi, yf, hy, hyi, hyf, hly, rfl, hvy, hpy⟩ := hk.compareParts
  have hx0 := magnitude_nonneg xi (trimEndMatches '0' m.decimals)
  have hy0 := magnitude_nonneg yi (trimEndMatches '0' k.decimals)
  unfold Items.compareNumeric
  rw [hx, hy, hvx, hvy, decimalValue, decimalValue, ← magnitude, ← magnitude]
  dsimp only
  rw [compareMagnitude_eq hxi hxf hyi hyf hlx hly hwm hwk]
  generalize magnitude xi _ = x at *
  generalize magnitude yi _ = y at *
  cases xn <;> cases yn
  · rfl
  · have hgt : -y < x := by linarith [hpy rfl]
    rw [signed_false, signed_true, compare_gt_iff_gt.mpr hgt]
    rfl
  · have hlt : -x < y := by linarith [hpx rfl]
    rw [signed_true, signed_false, compare_lt_iff_lt.mpr hlt]
    rfl
  · rw [signed_true, signed_true, compare_neg_neg]
    rfl

variable {ps : List (Nat × Nat)} {scale : Nat}

/-- The number of a digit text read from its last digit on. -/
def numberBack (s : Text) : Nat := Nat.ofDigits 10 (digitsOf s)

theorem number_reverse (s : Text) : number (digitsOf s.reverse) = numberBack s := by
  unfold number numberBack digitsOf
  rw [← map_reverse, reverse_reverse]

theorem number_eq_back (s : Text) : number (digitsOf s) = numberBack s.reverse := by
  rw [← number_reverse, reverse_reverse]

/-- Every pair holds two digits. -/
def DigitPairs (ps : List (Nat × Nat)) : Prop := ∀ p ∈ ps, p.1 < 10 ∧ p.2 < 10

theorem DigitPairs.tail {p : Nat × Nat} (h : DigitPairs (p :: ps)) :
    DigitPairs ps := fun q hq => h q (mem_cons_of_mem _ hq)

variable {a b : Text}

/-- Zeros where one text has run out change neither number. -/
theorem zipDigits_spec (ha : AllDigits a) (hb : AllDigits b) (ps : List (Nat × Nat))
    (hps : ps = zipWithAll (fun x y => (x.elim 0 digitOf, y.elim 0 digitOf)) a b) :
    DigitPairs ps ∧ Nat.ofDigits 10 (ps.map Prod.fst) = numberBack a ∧
      Nat.ofDigits 10 (ps.map Prod.snd) = numberBack b := by
  have hzeros (s : Text) (f : Char → Nat × Nat) (g : Nat × Nat → Nat) (h : ∀ c, g (f c) = 0) :
      Nat.ofDigits 10 ((s.map f).map g) = 0 := by
    induction s with
    | nil => rfl
    | cons c s ih => simp only [map_cons, h, Nat.ofDigits_cons, ih, Nat.mul_zero, Nat.add_zero]
  induction a generalizing b ps with
  | nil =>
    rw [nil_zipWithAll] at hps
    subst hps
    refine ⟨fun p hp => ?_, hzeros b _ _ fun c => rfl, ?_⟩
    · obtain ⟨c, hc, rfl⟩ := mem_map.mp hp
      exact ⟨by simp, digitOf_lt (hb c hc)⟩
    · rw [map_map]
      rfl
  | cons x a ih =>
    have hx := digitOf_lt (ha x mem_cons_self)
    cases b with
    | nil =>
      rw [zipWithAll_nil] at hps
      subst hps
      refine ⟨fun p hp => ?_, ?_, hzeros _ _ _ fun c => rfl⟩
      · obtain ⟨c, hc, rfl⟩ := mem_map.mp hp
        exact ⟨digitOf_lt (ha c hc), by simp⟩
      · rw [map_map]
        rfl
    | cons y b =>
      have hy := digitOf_lt (hb y mem_cons_self)
      rw [zipWithAll_cons_cons] at hps
      subst hps
      obtain ⟨hpairs, hfst, hsnd⟩ := ih (fun c hc => ha c (mem_cons_of_mem _ hc))
        (fun c hc => hb c (mem_cons_of_mem _ hc)) _ rfl
      refine ⟨forall_mem_cons.mpr ⟨⟨hx, hy⟩, hpairs⟩, ?_, ?_⟩
      · rw [map_cons, Nat.ofDigits_cons, hfst]
        rfl
      · rw [map_cons, Nat.ofDigits_cons, hsnd]
        rfl

theorem digitPairs_spec (ha : AllDigits a) (hb : AllDigits b) : DigitPairs (digitPairs a b) ∧
      Nat.ofDigits 10 ((digitPairs a b).map Prod.fst) = number (digitsOf a) ∧
      Nat.ofDigits 10 ((digitPairs a b).map Prod.snd) = number (digitsOf b) := by
  rw [number_eq_back a, number_eq_back b]
  exact zipDigits_spec (allDigits_reverse ha) (allDigits_reverse hb) _ rfl

/-- One step of the addition keeps the sum of what is written, what is left and the carry. -/
theorem addLoop_spec (hps : DigitPairs ps) (carry : Nat) (hcarry : carry ≤ 1) :
    AllDigits (addLoop ps carry) ∧ numberBack (addLoop ps carry) =
      Nat.ofDigits 10 (ps.map Prod.fst) + Nat.ofDigits 10 (ps.map Prod.snd) + carry := by
  induction ps generalizing carry with
  | nil =>
    unfold addLoop
    split
    · rename_i hzero
      exact ⟨isDigit_of_all rfl, by rw [hzero]; rfl⟩
    · have hone : carry = 1 := by omega
      subst hone
      exact ⟨isDigit_of_all rfl, rfl⟩
  | cons p ps ih =>
    obtain ⟨x, y⟩ := p
    obtain ⟨hx, hy⟩ : x < 10 ∧ y < 10 := hps (x, y) mem_cons_self
    have hmod : (x + y + carry) % 10 < 10 := Nat.mod_lt _ (by omega)
    obtain ⟨hdigits, hvalue⟩ := ih hps.tail ((x + y + carry) / 10) (by omega)
    refine ⟨forall_mem_cons.mpr ⟨isDigit_charOf hmod, hdigits⟩, ?_⟩
    change Nat.ofDigits 10 (digitOf (charOf ((x + y + carry) % 10)) :: digitsOf
      (addLoop ps ((x + y + carry) / 10))) = _
    rw [digitOf_charOf hmod, Nat.ofDigits_cons, map_cons, map_cons, Nat.ofDigits_cons, Nat.ofDigits_cons]
    change Nat.ofDigits 10 (digitsOf (addLoop ps ((x + y + carry) / 10))) = _ at hvalue
    rw [hvalue]
    push_cast
    omega

theorem addDigits_spec (ha : AllDigits a) (hb : AllDigits b) :
    AllDigits (addDigits a b) ∧ number (digitsOf (addDigits a b)) =
    number (digitsOf a) + number (digitsOf b) := by
  obtain ⟨hpairs, hfst, hsnd⟩ := digitPairs_spec ha hb
  obtain ⟨hdigits, hvalue⟩ := addLoop_spec hpairs 0 (by omega)
  refine ⟨allDigits_reverse hdigits, ?_⟩
  unfold addDigits
  rw [number_reverse, hvalue, hfst, hsnd, Nat.add_zero]

/-- One step of the subtraction keeps the difference; a borrow left at the end stands for a power of
ten that is missing. -/
theorem subLoop_spec (hps : DigitPairs ps) (borrow : Nat) (hborrow : borrow ≤ 1) :
    AllDigits (subLoop ps borrow) ∧ ∃ last ≤ 1,
      numberBack (subLoop ps borrow) + Nat.ofDigits 10 (ps.map Prod.snd) + borrow =
        Nat.ofDigits 10 (ps.map Prod.fst) + last * 10 ^ ps.length := by
  induction ps generalizing borrow with
  | nil => exact ⟨isDigit_of_all rfl, borrow, hborrow, by simp [subLoop, numberBack, digitsOf]⟩
  | cons p ps ih =>
    obtain ⟨x, y⟩ := p
    obtain ⟨hx, hy⟩ : x < 10 ∧ y < 10 := hps (x, y) mem_cons_self
    -- the digit written and the borrow it leaves
    have hstep (d next : Nat) (hd : d < 10) (hnext : next ≤ 1) (hbalance : d + y + borrow = x + 10 * next) :
        AllDigits (charOf d :: subLoop ps next) ∧ ∃ last ≤ 1, numberBack (charOf d :: subLoop ps next) +
            Nat.ofDigits 10 (((x, y) :: ps).map Prod.snd) + borrow =
          Nat.ofDigits 10 (((x, y) :: ps).map Prod.fst) + last * 10 ^ ((x, y) :: ps).length := by
      obtain ⟨hdigits, last, hlast, hvalue⟩ := ih hps.tail next hnext
      refine ⟨forall_mem_cons.mpr ⟨isDigit_charOf hd, hdigits⟩, last, hlast, ?_⟩
      change Nat.ofDigits 10 (digitOf (charOf d) :: digitsOf (subLoop ps next)) + _ + _ = _
      change Nat.ofDigits 10 (digitsOf (subLoop ps next)) + _ + _ = _ at hvalue
      rw [digitOf_charOf hd, Nat.ofDigits_cons, map_cons, map_cons, Nat.ofDigits_cons,
        Nat.ofDigits_cons, length_cons, pow_succ, ← Nat.mul_assoc]
      push_cast
      omega
    unfold subLoop
    split
    · exact hstep _ 1 (by omega) le_rfl (by omega)
    · exact hstep _ 0 (by omega) (by omega) (by omega)

theorem length_subLoop (ps : List (Nat × Nat)) (borrow : Nat) : (subLoop ps borrow).length = ps.length := by
  induction ps generalizing borrow with
  | nil => rfl
  | cons p ps ih =>
    unfold subLoop
    split <;> rw [length_cons, ih, length_cons]

theorem subDigits_spec (ha : AllDigits a) (hb : AllDigits b) (hle : number (digitsOf b) ≤ number (digitsOf a)) :
    AllDigits (subDigits a b) ∧ number (digitsOf (subDigits a b)) + number (digitsOf b) =
      number (digitsOf a) := by
  obtain ⟨hpairs, hfst, hsnd⟩ := digitPairs_spec ha hb
  obtain ⟨hdigits, last, hlast, hvalue⟩ := subLoop_spec hpairs 0 (by omega)
  have hreverse := allDigits_reverse hdigits
  -- nothing is borrowed at the end, since the first number is not below the second
  have hbound : numberBack (subLoop (digitPairs a b) 0) < 10 ^ (digitPairs a b).length := by
    have hlt := number_lt (digitsOf_digits hreverse)
    rw [number_reverse, digitsOf, length_map, length_reverse, length_subLoop] at hlt
    exact hlt
  have hzero : last = 0 := by
    by_contra hne
    have hone : last = 1 := by omega
    subst hone
    rw [hfst, hsnd] at hvalue
    omega
  subst hzero
  rw [hfst, hsnd] at hvalue
  have hnumber : number (digitsOf (subDigits a b)) = numberBack (subLoop (digitPairs a b) 0) := by
    unfold subDigits
    dsimp only
    split
    · rename_i hempty
      rw [List.isEmpty_iff] at hempty
      rw [← number_reverse, ← number_trimStart (subLoop _ _).reverse, hempty]
      rfl
    · rw [number_trimStart, number_reverse]
  refine ⟨?_, by rw [hnumber]; omega⟩
  unfold subDigits
  dsimp only
  split
  · exact isDigit_of_all rfl
  · exact allDigits_trimStart hreverse

theorem cmpDigits_eq (ha : AllDigits a) (hb : AllDigits b) :
    cmpDigits a b = compare (number (digitsOf a)) (number (digitsOf b)) := by
  unfold cmpDigits
  dsimp only
  rw [compare_texts (allDigits_trimStart ha) (allDigits_trimStart hb) (leads_trimStart ha)
    (leads_trimStart hb), number_trimStart, number_trimStart]

theorem addScaled_spec (xn yn : Bool) {xd yd : Text} (hx : AllDigits xd) (hy : AllDigits yd) :
    AllDigits (addScaled xn xd yn yd).2 ∧
    signed (addScaled xn xd yn yd).1 (number (digitsOf (addScaled xn xd yn yd).2)) =
        signed xn (number (digitsOf xd)) + signed yn (number (digitsOf yd)) := by
  unfold addScaled
  split
  · rename_i hsame
    have hsame : xn = yn := by simpa using hsame
    subst hsame
    obtain ⟨hdigits, hvalue⟩ := addDigits_spec hx hy
    refine ⟨hdigits, ?_⟩
    rw [hvalue]
    cases xn
    · simp
    · simp
      ring
  · rename_i hdiff
    have hdiff : yn = !xn := by
      cases xn <;> cases yn <;> simp_all
    subst hdiff
    rw [cmpDigits_eq hx hy, signed_not]
    rcases lt_trichotomy (number (digitsOf xd)) (number (digitsOf yd)) with h | h | h
    · obtain ⟨hdigits, hvalue⟩ := subDigits_spec hy hx h.le
      have hcast : (number (digitsOf (subDigits yd xd)) : ℚ) + number (digitsOf xd) =
          number (digitsOf yd) := by exact_mod_cast hvalue
      rw [compare_lt_iff_lt.mpr h]
      refine ⟨hdigits, ?_⟩
      dsimp only
      rw [signed_not]
      cases xn <;> simp <;> linarith
    · have hzero : AllDigits ['0'] := isDigit_of_all rfl
      rw [compare_eq_iff_eq.mpr h, h, add_neg_cancel]
      exact ⟨hzero, rfl⟩
    · obtain ⟨hdigits, hvalue⟩ := subDigits_spec hx hy h.le
      have hcast : (number (digitsOf (subDigits xd yd)) : ℚ) + number (digitsOf yd) =
          number (digitsOf xd) := by exact_mod_cast hvalue
      rw [compare_gt_iff_gt.mpr h]
      refine ⟨hdigits, ?_⟩
      dsimp only
      cases xn <;> simp <;> linarith

/-- A plain text without white space, as the arithmetic writes it, denotes its value. -/
theorem denotes_plain (neg : Bool) {int frac : Text} (hint : AllDigits int) (hfrac : AllDigits frac)
    (hsome : int ++ frac ≠ []) :
    ∃ m : Numeral, m.Plain ∧ m.int = int ∧ m.decimals = frac ∧ m.value = decimalValue neg int frac ∧
      m.text = (if neg then ['-'] else []) ++ (if frac.isEmpty then int else int ++ '.' :: frac) := by
  obtain ⟨m, hplain, hneg, hmint, hdecimals, htext⟩ := exists_plain_numeral neg hint hfrac hsome
  refine ⟨m, hplain, hmint, hdecimals, ?_, htext⟩
  rw [Numeral.Plain.value hplain, hneg, hmint, hdecimals]

/-- The integer part has no needless zeros in front. -/
def Numeral.Short (m : Numeral) : Prop := m.int.length ≤ 1 ∨ Leads (digitsOf m.int)

/-- Putting the point back gives a text of the scaled value. -/
theorem insertPoint_spec (neg : Bool) {digits : Text} (hdigits : AllDigits digits)
    (hlen : scale < digits.length) : ∃ m : Numeral, m.Plain ∧ m.Short ∧ m.decimals.length ≤ scale ∧
      m.text = insertPoint neg digits scale ∧
      m.value = signed neg (number (digitsOf digits) / 10 ^ scale) := by
  unfold insertPoint
  dsimp only
  have hsplit := take_append_drop (digits.length - scale) digits
  have hright : (digits.drop (digits.length - scale)).length = scale := by
    rw [length_drop]
    omega
  generalize digits.take (digits.length - scale) = left at *
  generalize digits.drop (digits.length - scale) = right at *
  subst hsplit
  have hvalue : (number (digitsOf (trimStartMatches '0' left)) : ℚ) + fraction
      (digitsOf (trimEndMatches '0' right)) = number (digitsOf (left ++ right)) / 10 ^ scale := by
    have hlen : (digitsOf right).length = scale := by rw [digitsOf, length_map, hright]
    rw [number_trimStart, fraction_trimEnd, eq_div_iff (by positivity), digitsOf_append, number_append_eq, hlen]
  have hleft : AllDigits left := fun c hc => hdigits c (mem_append_left _ hc)
  have hint := allDigits_trimStart hleft
  have hfrac : AllDigits (trimEndMatches '0' right) := allDigits_trimEnd fun c hc =>
    hdigits c (mem_append_right _ hc)
  have hflen : (trimEndMatches '0' right).length ≤ scale := ( rdropWhile_prefix _ _).length_le.trans hright.le
  have hleads := leads_trimStart hleft
  generalize trimStartMatches '0' left = int at *
  generalize trimEndMatches '0' right = frac at *
  -- an empty integer part is written as a zero
  obtain ⟨int', hwritten, hint', hvalue', hne, hshort⟩ : ∃ int', (if int.isEmpty then ['0'] else int) = int' ∧
      AllDigits int' ∧ number (digitsOf int') = number (digitsOf int) ∧ int' ≠ [] ∧
      (int'.length ≤ 1 ∨ Leads (digitsOf int')) := by
    cases int with
    | nil => exact ⟨['0'], rfl, isDigit_of_all rfl, rfl, by simp, .inl le_rfl⟩
    | cons c int => exact ⟨c :: int, rfl, hint, rfl, by simp, .inr hleads⟩
  rw [hwritten]
  obtain ⟨m, hplain, hmint, hdecimals, hm, htext⟩ := denotes_plain
    (neg && !(int' == ['0'] && frac.isEmpty)) hint' hfrac (by simp [hne])
  have hmshort : m.Short := by
    unfold Numeral.Short
    rw [hmint]
    exact hshort
  refine ⟨m, hplain, hmshort, hdecimals ▸ hflen, ?_, ?_⟩
  · rw [htext]
    split <;> split <;> rfl
  · rw [hm, decimalValue, hvalue', hvalue]
    cases hzero : (int' == ['0'] && frac.isEmpty) with
    | false => simp
    | true =>
      -- the sign of a zero is dropped
      obtain ⟨hi, hf⟩ := Bool.and_eq_true_iff.mp hzero
      rw [beq_iff_eq] at hi
      rw [List.isEmpty_iff] at hf
      have : (number (digitsOf (left ++ right)) : ℚ) / 10 ^ scale = 0 := by
        rw [← hvalue, ← hvalue', hi, hf]
        simp [digitsOf, number_singleton, digitOf]
      rw [this]
      simp

theorem padInteger_ok {digits padded : Text} (hdigits : AllDigits digits)
    (h : padInteger scale digits = .ok padded) :
    AllDigits padded ∧ number (digitsOf padded) = number (digitsOf digits) ∧ scale < padded.length := by
  unfold padInteger at h
  split at h
  · rw [padStart_eq (le_of_padStart h)] at h
    cases h
    refine ⟨(allDigits_zeros _).append hdigits, ?_, ?_⟩
    · rw [digitsOf_append, digitsOf_replicate, number_zeros_append]
    · rw [length_append, length_replicate]
      omega
  · cases h
    exact ⟨hdigits, rfl, by omega⟩

theorem exists_padInteger (digits : Text) : (∃ padded, padInteger scale digits = .ok padded) ↔
    scale < maxWidth ∨ scale < digits.length := by
  unfold padInteger
  split
  · rename_i hshort
    refine ⟨fun ⟨padded, h⟩ => .inl (le_of_padStart h), fun h =>
      ⟨_, padStart_eq (h.elim id fun hlong => ?_) _⟩⟩
    omega
  · rename_i hlong
    exact ⟨fun _ => .inr (not_le.mp hlong), fun _ => ⟨digits, rfl⟩⟩

/-- The steps of `add_numeric` on plain decimals. -/
theorem Numeral.Plain.addNumeric_eq (hm : m.Plain) (hk : k.Plain) : addNumeric m.text k.text =
      (padEnd (max m.decimals.length k.decimals.length) m.decimals >>= fun xw =>
        padEnd (max m.decimals.length k.decimals.length) k.decimals >>= fun yw =>
          padInteger (max m.decimals.length k.decimals.length)
            (addScaled m.negative (m.int ++ xw) k.negative (k.int ++ yw)).2 >>= fun digits =>
          .ok (some (insertPoint (addScaled m.negative (m.int ++ xw) k.negative (k.int ++ yw)).1 digits
            (max m.decimals.length k.decimals.length)))) := by
  unfold Items.addNumeric
  rw [hm.decimalParts, hk.decimalParts]

/-- Where `add_numeric` returns a sum of plain decimals, it is exact. -/
theorem Numeral.Plain.addNumeric_ok (hm : m.Plain) (hk : k.Plain) {t : Text}
    (h : addNumeric m.text k.text = .ok (some t)) : ∃ s : Numeral, s.text = t ∧ s.Plain ∧ s.Short ∧
      s.decimals.length ≤ max m.decimals.length k.decimals.length ∧
      max m.decimals.length k.decimals.length ≤ maxWidth ∧ s.value = m.value + k.value := by
  rw [hm.addNumeric_eq hk] at h
  obtain ⟨xw, hxw, h⟩ := bind_eq_ok.mp h
  obtain ⟨yw, hyw, h⟩ := bind_eq_ok.mp h
  obtain ⟨padded, hpad, h⟩ := bind_eq_ok.mp h
  have hscale := le_of_padEnd hxw
  rw [padEnd_eq hscale] at hxw hyw
  cases hxw
  cases hyw
  cases h
  have hxle := le_max_left m.decimals.length k.decimals.length
  have hyle := le_max_right m.decimals.length k.decimals.length
  rw [hm.value, hk.value]
  generalize max m.decimals.length k.decimals.length = scale at *
  have hwide (n : Numeral) : AllDigits (n.int ++ (n.decimals ++ replicate (scale - n.decimals.length) '0')) :=
    .append n.intDigits (.append n.fracDigits (allDigits_zeros _))
  obtain ⟨hdigits, hvalue⟩ := addScaled_spec m.negative k.negative (hwide m) (hwide k)
  rw [number_widened hxle, number_widened hyle] at hvalue
  generalize addScaled m.negative (m.int ++ (m.decimals ++ replicate (scale - m.decimals.length) '0'))
    k.negative (k.int ++ (k.decimals ++ replicate (scale - k.decimals.length) '0')) = sum at *
  obtain ⟨neg, digits⟩ := sum
  dsimp only at hdigits hvalue hpad ⊢
  obtain ⟨hpdigits, hpvalue, hplen⟩ := padInteger_ok hdigits hpad
  obtain ⟨s, hplain, hshort, hslen, htext, hs⟩ := insertPoint_spec neg hpdigits hplen
  refine ⟨s, htext, hplain, hshort, hslen, hscale, ?_⟩
  have hpos : (10 : ℚ) ^ scale ≠ 0 := by positivity
  rw [hs, hpvalue, decimalValue, decimalValue, ← magnitude, ← magnitude]
  have hscaled (n : Bool) (q : ℚ) : signed n (q * 10 ^ scale) = signed n q * 10 ^ scale := by
    cases n <;> simp
  rw [hscaled, hscaled, ← add_mul] at hvalue
  have hdiv : signed neg ((number (digitsOf digits) : ℚ) / 10 ^ scale) =
    signed neg (number (digitsOf digits)) / 10 ^ scale := by
    cases neg <;> simp [neg_div]
  rw [hdiv, hvalue, mul_div_assoc, div_self hpos, mul_one]

/-- The digits of a sum, with as many after the point as the longer fraction has. -/
def sumDigits (xn : Bool) (xi xf : Text) (yn : Bool) (yi yf : Text) : Text :=
  let widened (int frac : Text) := int ++ (frac ++ replicate (max xf.length yf.length - frac.length) '0')
  (addScaled xn (widened xi xf) yn (widened yi yf)).2

/-- The fractions can be padded to the same width, and the sum can be padded to one digit more, or has it. -/
def SumPads (xn : Bool) (xi xf : Text) (yn : Bool) (yi yf : Text) : Prop :=
  max xf.length yf.length < maxWidth ∨
    (max xf.length yf.length = maxWidth ∧ maxWidth < (sumDigits xn xi xf yn yi yf).length)

/-- `add_numeric` returns a sum of plain decimals just where the padding does not panic. -/
theorem Numeral.Plain.exists_addNumeric (hm : m.Plain) (hk : k.Plain) :
    (∃ t, Items.addNumeric m.text k.text = .ok (some t)) ↔
    SumPads m.negative m.int m.decimals k.negative k.int k.decimals := by
  rw [hm.addNumeric_eq hk]
  constructor
  · rintro ⟨t, h⟩
    obtain ⟨xw, hxw, h⟩ := bind_eq_ok.mp h
    obtain ⟨yw, hyw, h⟩ := bind_eq_ok.mp h
    obtain ⟨padded, hpad, -⟩ := bind_eq_ok.mp h
    have hscale := le_of_padEnd hxw
    rw [padEnd_eq hscale] at hxw hyw
    cases hxw
    cases hyw
    rcases (exists_padInteger _).mp ⟨padded, hpad⟩ with hlt | hlong
    · exact .inl hlt
    · exact hscale.lt_or_eq.imp id fun heq => ⟨heq, heq ▸ hlong⟩
  · intro h
    have hscale : max m.decimals.length k.decimals.length ≤ maxWidth := h.elim le_of_lt fun h => h.1.le
    obtain ⟨padded, hpad⟩ := (exists_padInteger
      (sumDigits m.negative m.int m.decimals k.negative k.int k.decimals)).mpr (h.imp id fun h => h.1 ▸ h.2)
    exact ⟨_, bind_eq_ok.mpr ⟨_, padEnd_eq hscale _,
      bind_eq_ok.mpr ⟨_, padEnd_eq hscale _, bind_eq_ok.mpr ⟨_, hpad, rfl⟩⟩⟩⟩

/-- `negate_numeric` adds to zero a plain decimal of the opposite sign. -/
theorem Numeral.Plain.negateNumeric_eq (hm : m.Plain) : ∃ z k : Numeral, z.Plain ∧ k.Plain ∧
      (z.negative = false ∧ z.int = ['0'] ∧ z.decimals = []) ∧
      (k.negative = !m.negative ∧ k.int = m.int ∧ k.decimals = m.decimals) ∧
      negateNumeric m.text = Items.addNumeric z.text k.text := by
  obtain ⟨k, hkplain, hkneg, hkint, hkdec, hktext⟩ :=
    exists_plain_numeral (!m.negative) m.intDigits m.fracDigits m.someDigit
  obtain ⟨z, hzplain, hzneg, hzint, hzdec, hztext⟩ := @exists_plain_numeral false ['0'] []
    (isDigit_of_all rfl) (isDigit_of_all rfl) (by simp)
  refine ⟨z, k, hzplain, hkplain, ⟨hzneg, hzint, hzdec⟩, ⟨hkneg, hkint, hkdec⟩, ?_⟩
  rw [hktext, hztext]
  unfold Items.negateNumeric
  rw [hm.decimalParts]
  change Items.addNumeric ['0'] (if m.decimals.isEmpty then _ else _) = Items.addNumeric ['0'] _
  congr 1
  change _ = (if (!m.negative) = true then ['-'] else []) ++
    (if m.decimals.isEmpty then m.int else m.int ++ '.' :: m.decimals)
  cases m.negative <;> split <;> rfl

theorem Numeral.Plain.exists_negateNumeric (hm : m.Plain) : (∃ t, negateNumeric m.text = .ok (some t)) ↔
    SumPads false ['0'] [] (!m.negative) m.int m.decimals := by
  obtain ⟨z, k, hz, hk, ⟨hzneg, hzint, hzdec⟩, ⟨hkneg, hkint, hkdec⟩, heq⟩ := hm.negateNumeric_eq
  rw [heq, hz.exists_addNumeric hk, hzneg, hzint, hzdec, hkneg, hkint, hkdec]

/-- Where `negate_numeric` returns a negation of a plain decimal, it is exact. -/
theorem Numeral.Plain.negateNumeric_ok (hm : m.Plain) {t : Text} (h : negateNumeric m.text = .ok (some t)) :
    ∃ s : Numeral, s.text = t ∧ s.Plain ∧ s.value = -m.value := by
  obtain ⟨z, k, hz, hk, ⟨hzneg, hzint, hzdec⟩, ⟨hkneg, hkint, hkdec⟩, heq⟩ := hm.negateNumeric_eq
  obtain ⟨s, hs, hplain, -, -, -, hvalue⟩ := hz.addNumeric_ok hk (heq ▸ h)
  refine ⟨s, hs, hplain, ?_⟩
  rw [hvalue, hz.value, hk.value, hm.value, hzneg, hzint, hzdec, hkneg, hkint, hkdec]
  simp [decimalValue, digitsOf, number_singleton, digitOf, signed_not]

theorem mem_splitOnce {s : Text} {c : Char} (hc : c ∈ s) (hne : c ≠ '.') :
    c ∈ ((splitOnce '.' s).getD (s, [])).1 ++ ((splitOnce '.' s).getD (s, [])).2 := by
  unfold splitOnce
  cases hdrop : s.dropWhile (· != '.') with
  | nil => simpa using hc
  | cons point rest =>
    have hpoint : point = '.' := by
      have := head?_dropWhile_not (· != '.') s
      rw [hdrop] at this
      simpa using this
    have hsplit : s.takeWhile (· != '.') ++ point :: rest = s := by
      rw [← hdrop, takeWhile_append_dropWhile]
    rw [← hsplit, mem_append, mem_cons, hpoint] at hc
    rcases hc with hc | hc | hc
    · exact mem_append_left _ hc
    · exact absurd hc hne
    · exact mem_append_right _ hc

/-- The decimal code reads no exponent. -/
theorem Numeral.plain_of_decimalParts {m : Numeral} {parts : Bool × Text × Text}
    (h : decimalParts m.text = some parts) : m.Plain := by
  by_contra hplain
  obtain ⟨x, hx⟩ := Option.ne_none_iff_exists'.mp hplain
  obtain ⟨c, hc, hdigit, hpoint⟩ : ∃ c ∈ m.int ++ (m.fracText ++ m.exponentText),
    c.isDigit = false ∧ c ≠ '.' := by
    refine ⟨x.letter, ?_, ?_, ?_⟩
    · unfold Numeral.exponentText
      rw [hx]
      simp [Exponent.text]
    · rcases x.isLetter with hletter | hletter <;> rw [hletter] <;> rfl
    · rcases x.isLetter with hletter | hletter <;> rw [hletter] <;> decide
  unfold decimalParts at h
  simp only [m.trim_text, m.splitSign_body] at h
  split at h
  · cases h
  · split at h
    · rename_i hall
      have := all_eq_true.mp hall c (mem_splitOnce hc hpoint)
      rw [hdigit] at this
      cases this
    · cases h

theorem addNumeric_parts {x y s : Text} (h : addNumeric x y = .ok (some s)) :
    (∃ px, decimalParts x = some px) ∧ ∃ py, decimalParts y = some py := by
  unfold addNumeric at h
  cases hx : decimalParts x with
  | none => rw [hx] at h; cases h
  | some px =>
    cases hy : decimalParts y with
    | none => rw [hx, hy] at h; cases h
    | some py => exact ⟨⟨px, rfl⟩, py, rfl⟩

end AnimusDb.Items
