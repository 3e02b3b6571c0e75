import AnimusDb.ItemDecimal
import AnimusDb.ItemNumKeyOrder
import AnimusDb.ItemValue

/-! The two implementations of numbers: the byte encoding of keys, and the decimal texts that
conditions and updates compute with. They agree on texts without an exponent. -/

open RustText DecimalDigits

namespace AnimusDb.Items

/-- The order of two values; only numbers, strings and binaries have one. -/
def compareValues (a b : AttributeValue) : Except FormatPanic (Option Ordering) :=
  match a, b with
  | .N x, .N y => compareNumeric x y
  | .S x, .S y => .ok (some (compare (utf8 x) (utf8 y)))
  | .B x, .B y => .ok (some (compare x y))
  | _, _ => .ok none

/-- Equality of values, numbers by their order. -/
def valuesEqual (a b : AttributeValue) : Except FormatPanic Bool := do
  match ← compareValues a b with
  | some order => .ok (order == .eq)
  | none => .ok (decide (a = b))

/-- The fraction of an accepted text, without the zeros at its end, can be padded. -/
theorem Numeral.Plain.length_fraction_le {m : Numeral} {x : List UInt8} (hm : m.Plain)
    (h : encodeChecked m.text = some x) : (trimEndMatches '0' m.decimals).length ≤ maxWidth := by
  obtain ⟨neg, e, ds, hcanonical, hform, hlen⟩ := encodeChecked_form h
  rw [Numeral.canonicalize_plain hm] at hcanonical
  have hle : (trimEndMatches '0' m.decimals).length ≤ ((ds.length : Int) + 0 - e).toNat :=
    (canonicalForm_spec m.intDigits m.fracDigits hcanonical).2.2
  have hbounds := hform.exponent_bounds
  unfold maxSignificantDigits at hlen
  unfold maxWidth
  omega

variable {m k : Numeral} {x y : List UInt8}

theorem Numeral.Plain.compareNumeric_accepted (hm : m.Plain) (hk : k.Plain) (ha : encodeChecked m.text = some x)
    (hb : encodeChecked k.text = some y) : Items.compareNumeric m.text k.text = .ok (some (compare x y)) ∧
      valuesEqual (.N m.text) (.N k.text) = .ok (decide (x = y)) := by
  have hcompare : Items.compareNumeric m.text k.text = .ok (some (compare x y)) := by
    rw [hm.compareNumeric hk (hm.length_fraction_le ha) (hk.length_fraction_le hb),
      compare_encoded ha hb ⟨m, rfl, rfl⟩ ⟨k, rfl, rfl⟩]
  refine ⟨hcompare, ?_⟩
  change (Items.compareNumeric m.text k.text >>= _) = _
  rw [hcompare]
  change Except.ok (compare x y == .eq) = Except.ok (decide (x = y))
  congr 1
  rw [Bool.eq_iff_iff, beq_iff_eq, decide_eq_true_iff, Std.compare_eq_iff_eq]

end AnimusDb.Items
