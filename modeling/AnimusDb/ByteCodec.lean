import Mathlib.Data.List.Induction
import Mathlib.Data.Nat.Digits.Defs
import Mathlib.Tactic.Ring

/-! Reading what was written, byte by byte: fixed-width big-endian numbers, byte strings behind their
length, and lists behind their count. A reader takes what it needs from the front of the input. -/

open List

namespace ByteCodec

abbrev Bytes := List UInt8

/-- Reads a value from the front of the input and leaves the rest. -/
abbrev Reader (α : Type) := Bytes → Option (α × Bytes)

/-- Whatever follows, the reader takes exactly these bytes and returns the value. -/
def Reads {α : Type} (read : Reader α) (a : α) (bytes : Bytes) : Prop :=
  ∀ rest, read (bytes ++ rest) = some (a, rest)

/-- The low `width` bytes of a number, the most significant first. -/
def be : Nat → Nat → Bytes
  | 0, _ => []
  | width + 1, n => be width (n / 256) ++ [UInt8.ofNat n]

variable (width n : Nat)

@[simp] theorem length_be : (be width n).length = width := by
  induction width generalizing n with
  | zero => rfl
  | succ width ih => rw [be, length_append, ih, length_singleton]

/-- The number of big-endian bytes. -/
def ofBe (bytes : Bytes) : Nat := bytes.foldl (fun n b => n * 256 + b.toNat) 0

theorem ofBe_snoc (bytes : Bytes) (b : UInt8) : ofBe (bytes ++ [b]) = ofBe bytes * 256 + b.toNat := by
  unfold ofBe
  rw [foldl_append]
  rfl

theorem ofBe_be : ofBe (be width n) = n % 256 ^ width := by
  induction width generalizing n with
  | zero => rw [pow_zero, Nat.mod_one]; rfl
  | succ width ih =>
    have hbyte : (UInt8.ofNat n).toNat = n % 256 := UInt8.toNat_ofNat'
    rw [be, ofBe_snoc, ih, hbyte, pow_succ, Nat.mul_comm (256 ^ width), Nat.mod_mul]
    ring

theorem ofBe_lt (bytes : Bytes) : ofBe bytes < 256 ^ bytes.length := by
  induction bytes using reverseRecOn with
  | nil => exact Nat.one_pos
  | append_singleton bytes b ih =>
    rw [ofBe_snoc, length_append, length_singleton, pow_succ]
    have hb := b.toNat_lt
    omega

theorem ofBe_be_of_lt {width n : Nat} (h : n < 256 ^ width) : ofBe (be width n) = n := by
  rw [ofBe_be, Nat.mod_eq_of_lt h]

theorem take_be (rest : Bytes) :
    (be width n ++ rest).take width = be width n := take_left' (length_be width n)

theorem drop_be (rest : Bytes) : (be width n ++ rest).drop width = rest := drop_left' (length_be width n)

variable {bytes : Bytes}

/-- Takes a number of bytes, if there are as many. -/
def take (n : Nat) : Reader Bytes := fun input =>
  if n ≤ input.length then some (input.take n, input.drop n) else none

variable {α : Type}

theorem Reads.whole {read : Reader α} {a : α} (h : Reads read a bytes) : read bytes = some (a, []) := by
  simpa using h []

theorem reads_take (bytes : Bytes) : Reads (take bytes.length) bytes bytes := by
  intro rest
  unfold take
  rw [if_pos (by simp), take_left, drop_left]

/-- Reads a big-endian number. -/
def number (width : Nat) : Reader Nat := fun input =>
  (take width input).map fun (bytes, rest) => (ofBe bytes, rest)

theorem reads_number {width n : Nat} (h : n < 256 ^ width) : Reads (number width) n (be width n) := by
  intro rest
  have htake := reads_take (be width n) rest
  rw [length_be] at htake
  unfold number
  rw [htake, Option.map_some]
  dsimp only
  rw [ofBe_be_of_lt h]

/-- Reads one value, then another that may depend on it. -/
def andThen {α β : Type} (read : Reader α) (next : α → Reader β) : Reader β := fun input =>
  (read input).bind fun (a, rest) => next a rest

theorem Reads.andThen {β : Type} {read : Reader α} {next : α → Reader β} {a : α} {b : β}
    {x y : Bytes} (ha : Reads read a x) (hb : Reads (next a) b y) :
    Reads (ByteCodec.andThen read next) b (x ++ y) := by
  intro rest
  unfold ByteCodec.andThen
  rw [append_assoc, ha, Option.bind_some]
  exact hb rest

/-- Takes nothing. -/
def result (a : α) : Reader α := fun input => some (a, input)

theorem reads_result (a : α) : Reads (result a) a [] := fun _ => rfl

theorem Reads.then_result {β : Type} {read : Reader α} {f : α → β} {a : α}
    (h : Reads read a bytes) : Reads (ByteCodec.andThen read fun x => result (f x)) (f a) bytes := by
  intro rest
  unfold ByteCodec.andThen
  rw [h rest]
  rfl

/-- Reads a byte string behind its length of four bytes. -/
def prefixed : Reader Bytes := andThen (number 4) take

/-- Writes a byte string behind its length. -/
def putPrefixed (bytes : Bytes) : Bytes := be 4 bytes.length ++ bytes

theorem reads_prefixed (h : bytes.length < 256 ^ 4) :
    Reads prefixed bytes (putPrefixed bytes) := (reads_number h).andThen (reads_take bytes)

/-- Reads a value a number of times. -/
def times (read : Reader α) : Nat → Reader (List α)
  | 0 => result []
  | n + 1 => andThen read fun a => andThen (times read n) fun as => result (a :: as)

theorem reads_times {read : Reader α} {put : α → Bytes} {as : List α}
    (h : ∀ a ∈ as, Reads read a (put a)) : Reads (times read as.length) as (as.flatMap put) := by
  induction as with
  | nil => exact reads_result []
  | cons a as ih =>
    have hrest := ih fun b hb => h b (mem_cons_of_mem _ hb)
    exact (h a mem_cons_self).andThen hrest.then_result

variable {β : Type} {read : Reader α} {P : α → Prop} {Q : β → Prop}

/-- Whatever the input, a value that is read satisfies the predicate. -/
def Yields (read : Reader α) (P : α → Prop) : Prop := ∀ input a rest, read input = some (a, rest) → P a

theorem yields_number (width : Nat) : Yields (number width) fun n => n < 256 ^ width := by
  intro input n rest h
  obtain ⟨⟨bytes, rest'⟩, htake, heq⟩ := Option.map_eq_some_iff.mp h
  obtain ⟨rfl, -⟩ := Prod.mk.inj heq
  unfold take at htake
  split_ifs at htake with hlen
  cases htake
  have hbound := ofBe_lt (input.take width)
  rwa [length_take_of_le hlen] at hbound

theorem Yields.andThen (h : Yields read P) {next : α → Reader β} (hnext : ∀ a, P a → Yields (next a) Q) :
    Yields (ByteCodec.andThen read next) Q := by
  intro input b rest hread
  obtain ⟨⟨a, rest'⟩, hfirst, hread⟩ := Option.bind_eq_some_iff.mp hread
  exact hnext a (h _ _ _ hfirst) _ _ _ hread

theorem yields_result {a : α} (h : P a) : Yields (result a) P := by
  intro input a' rest hread
  cases hread
  exact h

theorem yields_true (read : Reader α) : Yields read fun _ => True := fun _ _ _ _ => trivial

end ByteCodec
