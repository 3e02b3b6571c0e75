import Mathlib.Data.List.DropRight
import Mathlib.Tactic.IntervalCases

/-! String slices as lists of characters, with the operations of the standard library that number
texts are read and written with. Every character that these operations look for is ASCII, so that
walking over characters and walking over UTF-8 bytes finds the same places. Behind them, postconditions of
computations that may fail, with a rule for each way of building one. -/

open List

namespace RustText

/-- A string slice. -/
abbrev Text := List Char

/-- The characters that `str::trim` removes. -/
def isWhitespace (c : Char) : Bool :=
  let n := c.toNat
  (9 ≤ n && n ≤ 13) || n == 0x20 || n == 0x85 || n == 0xA0 || n == 0x1680 ||
    (0x2000 ≤ n && n ≤ 0x200A) || n == 0x2028 || n == 0x2029 || n == 0x202F || n == 0x205F ||
    n == 0x3000

def trim (s : Text) : Text := (s.dropWhile isWhitespace).rdropWhile isWhitespace

/-- `str::trim_start_matches` of one character. -/
def trimStartMatches (c : Char) (s : Text) : Text := s.dropWhile (· == c)

/-- `str::trim_end_matches` of one character. -/
def trimEndMatches (c : Char) (s : Text) : Text := s.rdropWhile (· == c)

/-- `str::split_once` at one character. -/
def splitOnce (c : Char) (s : Text) : Option (Text × Text) :=
  match s.dropWhile (· != c) with
  | [] => none
  | _ :: rest => some (s.takeWhile (· != c), rest)

/-- The value of a digit character. -/
def digitOf (c : Char) : Nat := c.toNat - '0'.toNat

/-- The character of a digit. -/
def charOf (d : Nat) : Char := Char.ofNat ('0'.toNat + d)

/-- The values of the characters of a text. -/
def digitsOf (s : Text) : List Nat := s.map digitOf

/-- The formatting machinery stops on a width that does not fit its 16 bits. -/
inductive FormatPanic where
  | argumentOutOfRange

/-- The greatest width that `format!` takes. -/
def maxWidth : Nat := 65535

/-- `format!("{s:0<width$}")`. -/
def padEnd (width : Nat) (s : Text) : Except FormatPanic Text :=
  if maxWidth < width then .error .argumentOutOfRange
  else .ok (s ++ List.replicate (width - s.length) '0')

/-- `format!("{s:0>width$}")`. -/
def padStart (width : Nat) (s : Text) : Except FormatPanic Text :=
  if maxWidth < width then .error .argumentOutOfRange
  else .ok (List.replicate (width - s.length) '0' ++ s)

theorem bind_eq_ok {ε α β : Type} {x : Except ε α} {f : α → Except ε β} {b : β} :
    x >>= f = .ok b ↔ ∃ a, x = .ok a ∧ f a = .ok b := by
  cases x with
  | error e => simp [bind, Except.bind]
  | ok a => simp [bind, Except.bind]

variable {c : Char} {rest xs : Text}

variable {p : Char → Bool}

theorem dropWhile_append_stop (hxs : ∀ x ∈ xs, p x = true) (hc : p c = false) :
    (xs ++ c :: rest).dropWhile p = c :: rest := by
  rw [dropWhile_append_of_pos hxs, dropWhile_cons_of_neg (by simp [hc])]

theorem takeWhile_append_stop (hxs : ∀ x ∈ xs, p x = true) (hc : p c = false) :
    (xs ++ c :: rest).takeWhile p = xs := by
  rw [takeWhile_append_of_pos hxs, takeWhile_cons_of_neg (by simp [hc]), append_nil]

/-- The part of a text at which a scan over `p` stops. -/
def Stops (p : Char → Bool) (rest : Text) : Prop := ∀ c ∈ rest.head?, p c = false

theorem Stops.nil : Stops p [] := by simp [Stops]

theorem Stops.cons (h : p c = false) : Stops p (c :: rest) := by
  simpa [Stops] using h

theorem scan_append (hxs : ∀ x ∈ xs, p x = true) (hrest : Stops p rest) :
    (xs ++ rest).takeWhile p = xs ∧ (xs ++ rest).dropWhile p = rest := by
  cases rest with
  | nil => simp [takeWhile_eq_self_iff.mpr hxs, dropWhile_eq_nil_iff.mpr hxs]
  | cons c rest =>
    have hc : p c = false := hrest c (by simp)
    exact ⟨takeWhile_append_stop hxs hc, dropWhile_append_stop hxs hc⟩

theorem stops_dropWhile (s : Text) : Stops p (s.dropWhile p) := by
  intro c hc
  have h := head?_dropWhile_not p s
  rw [Option.mem_def.mp hc] at h
  exact h

theorem rdropWhile_append_all {body after : Text} (hafter : ∀ c ∈ after, p c = true)
    (hbody : ∀ c ∈ body.getLast?, p c = false) : (body ++ after).rdropWhile p = body := by
  unfold rdropWhile
  rw [reverse_append]
  have hrev : ∀ c ∈ after.reverse, p c = true := fun c hc => hafter c (mem_reverse.mp hc)
  have hstop : Stops p body.reverse := by
    intro c hc
    rw [head?_reverse] at hc
    exact hbody c hc
  rw [(scan_append hrev hstop).2, reverse_reverse]

theorem exists_trimStartMatches (c : Char) (s : Text) :
    ∃ k, s = replicate k c ++ trimStartMatches c s ∧ (trimStartMatches c s).head? ≠ some c := by
  have hall : ∀ x ∈ s.takeWhile (· == c), x = c := fun x hx => by
    simpa using mem_takeWhile_imp hx
  refine ⟨(s.takeWhile (· == c)).length, ?_, fun hhead => ?_⟩
  · rw [← eq_replicate_of_mem hall]
    exact takeWhile_append_dropWhile.symm
  · have := stops_dropWhile (p := (· == c)) s c hhead
    simp at this

theorem exists_trimEndMatches (c : Char) (s : Text) :
    ∃ k, s = trimEndMatches c s ++ replicate k c ∧ (trimEndMatches c s).getLast? ≠ some c := by
  obtain ⟨k, hs, hhead⟩ := exists_trimStartMatches c s.reverse
  refine ⟨k, ?_, by rwa [trimEndMatches, rdropWhile, getLast?_reverse]⟩
  rw [← reverse_inj, hs, reverse_append, reverse_replicate, trimEndMatches, rdropWhile, reverse_reverse]
  rfl

/-- Every text is what `trim` leaves of it, with white space around it. -/
theorem exists_around (s : Text) : ∃ before after : Text, s = before ++ trim s ++ after ∧
    (∀ c ∈ before, isWhitespace c = true) ∧ ∀ c ∈ after, isWhitespace c = true := by
  refine ⟨s.takeWhile isWhitespace, (s.dropWhile isWhitespace).rtakeWhile isWhitespace, ?_,
    fun c hc => mem_takeWhile_imp hc, fun c hc => mem_rtakeWhile_imp hc⟩
  have hsplit : (s.dropWhile isWhitespace).rdropWhile isWhitespace ++
      (s.dropWhile isWhitespace).rtakeWhile isWhitespace = s.dropWhile isWhitespace := by
    unfold rdropWhile rtakeWhile
    rw [← reverse_append, takeWhile_append_dropWhile, reverse_reverse]
  rw [trim, append_assoc, hsplit, takeWhile_append_dropWhile]

theorem isDigit_iff : c.isDigit = true ↔ '0'.toNat ≤ c.toNat ∧ c.toNat ≤ '9'.toNat := by
  unfold Char.isDigit
  simp only [Bool.and_eq_true, decide_eq_true_eq, ge_iff_le]
  exact .rfl

abbrev AllDigits (s : Text) : Prop := ∀ c ∈ s, c.isDigit = true

theorem isDigit_of_all {s : Text} (h : s.all Char.isDigit = true) : AllDigits s :=
  all_eq_true.mp h

theorem allDigits_zeros (k : Nat) : AllDigits (replicate k '0') :=
  fun _ hc => eq_of_mem_replicate hc ▸ rfl

theorem AllDigits.append {s t : Text} (hs : AllDigits s) (ht : AllDigits t) : AllDigits (s ++ t) :=
  forall_mem_append.mpr ⟨hs, ht⟩

theorem digitOf_lt (h : c.isDigit = true) : digitOf c < 10 := by
  obtain ⟨-, hle⟩ := isDigit_iff.mp h
  change c.toNat ≤ 57 at hle
  change c.toNat - 48 < 10
  omega

theorem toNat_charOf {d : Nat} (h : d < 10) : (charOf d).toNat = 48 + d := by
  interval_cases d <;> rfl

theorem isDigit_charOf {d : Nat} (h : d < 10) : (charOf d).isDigit = true := by
  interval_cases d <;> rfl

theorem digitOf_charOf {d : Nat} (h : d < 10) : digitOf (charOf d) = d := by
  change (charOf d).toNat - 48 = d
  rw [toNat_charOf h, Nat.add_sub_cancel_left]

theorem charOf_digitOf (h : c.isDigit = true) : charOf (digitOf c) = c := by
  obtain ⟨hlow, -⟩ := isDigit_iff.mp h
  change 48 ≤ c.toNat at hlow
  change Char.ofNat (48 + (c.toNat - 48)) = c
  rw [Nat.add_sub_cancel' hlow, Char.ofNat_toNat]

theorem digitOf_inj {d : Char} (hc : c.isDigit = true) (hd : d.isDigit = true) (h : digitOf c = digitOf d) :
    c = d := by
  rw [← charOf_digitOf hc, ← charOf_digitOf hd, h]

theorem digitOf_eq_zero (h : c.isDigit = true) : digitOf c = 0 ↔ c = '0' :=
  ⟨fun hzero => digitOf_inj h (by rfl) hzero, fun heq => by rw [heq]; rfl⟩

theorem isWhitespace_digit (h : c.isDigit = true) : isWhitespace c = false := by
  rw [← charOf_digitOf h]
  have hlt := digitOf_lt h
  generalize digitOf c = d at hlt
  interval_cases d <;> rfl

theorem digitsOf_append (s t : Text) : digitsOf (s ++ t) = digitsOf s ++ digitsOf t := map_append

theorem digitsOf_replicate (k : Nat) : digitsOf (replicate k '0') = replicate k 0 := by
  unfold digitsOf
  rw [map_replicate]
  rfl

theorem splitOnce_append (hxs : ∀ x ∈ xs, x ≠ c) : splitOnce c (xs ++ c :: rest) = some (xs, rest) := by
  have hall : ∀ x ∈ xs, (x != c) = true := fun x hx => by simpa using hxs x hx
  unfold splitOnce
  rw [dropWhile_append_stop hall (by simp), takeWhile_append_stop hall (by simp)]

theorem splitOnce_none {s : Text} (hs : ∀ x ∈ s, x ≠ c) : splitOnce c s = none := by
  have hall : ∀ x ∈ s, (x != c) = true := fun x hx => by simpa using hs x hx
  unfold splitOnce
  rw [dropWhile_eq_nil_iff.mpr hall]

end RustText

namespace Fallible

variable {ε α β : Type} {Q R : α → Prop}

/-- The result, if there is one, satisfies `Q`. -/
def Ensures (Q : α → Prop) : Except ε α → Prop
  | .ok a => Q a
  | .error _ => True

@[simp] theorem ensures_ok (a : α) : Ensures Q (.ok a : Except ε α) ↔ Q a := Iff.rfl

@[simp] theorem ensures_bind {Q : β → Prop} (x : Except ε α) (f : α → Except ε β) :
    Ensures Q (x >>= f) ↔ Ensures (fun a => Ensures Q (f a)) x := by
  cases x <;> rfl

@[simp] theorem ensures_ite (p : Prop) [Decidable p] (x y : Except ε α) :
    Ensures Q (if p then x else y) ↔ (p → Ensures Q x) ∧ (¬ p → Ensures Q y) := by
  by_cases h : p <;> simp [h]

variable {x : Except ε α}

theorem Ensures.mono (h : Ensures Q x) (himp : ∀ a, Q a → R a) : Ensures R x := by
  cases x with
  | ok a => exact himp a h
  | error e => trivial

theorem Ensures.of_eq {a : α} (h : Ensures Q x) (hx : x = .ok a) : Q a := by
  subst hx
  exact h

theorem ensures_of_forall (h : ∀ a, Q a) : Ensures Q x := by
  cases x with
  | ok a => exact h a
  | error e => trivial

@[simp] theorem ensures_true (x : Except ε α) :
    Ensures (fun _ => True) x := ensures_of_forall fun _ => trivial

variable {γ δ : Type} {f : α → β} {y : Except ε α}

/-- The two computations fail alike, or their results look the same through `f`. -/
def Agree (f : α → β) (x y : Except ε α) : Prop := x.map f = y.map f

@[simp] theorem agree_refl (x : Except ε α) : Agree f x x := rfl

@[simp] theorem agree_ok {a b : α} : Agree f (.ok a : Except ε α) (.ok b) ↔ f a = f b := by
  simp [Agree, Except.map]

@[simp] theorem agree_bind {x : Except ε γ} {g g' : γ → Except ε α} :
    Agree f (x >>= g) (x >>= g') ↔ Ensures (fun a => Agree f (g a) (g' a)) x := by
  cases x with
  | ok a => exact Iff.rfl
  | error e => exact iff_of_true rfl trivial

@[simp] theorem agree_ite {p : Prop} [Decidable p] {x' y' : Except ε α} :
    Agree f (if p then x else y) (if p then x' else y') ↔ (p → Agree f x x') ∧ (¬ p → Agree f y y') := by
  by_cases hp : p <;> simp [hp]

/-- Computations that go on from results that look the same. -/
theorem Agree.bind {g : δ → β} {k k' : α → Except ε δ} (h : Agree f x y)
    (hk : ∀ a b, f a = f b → Agree g (k a) (k' b)) : Agree g (x >>= k) (y >>= k') := by
  cases x with
  | ok a =>
    cases y with
    | ok b => exact hk a b (Except.ok.inj h)
    | error e => cases h
  | error e =>
    cases y with
    | ok b => cases h
    | error e' =>
      cases h
      rfl

end Fallible
