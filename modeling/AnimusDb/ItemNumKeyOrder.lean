import AnimusDb.ItemNumKey

/-! Encoded numbers are ordered as their values are ordered, no encoding continues another one, and
decoding gives back a text of the same value and encoding. -/

open RustText DecimalDigits List

namespace AnimusDb.Items

variable {x : List UInt8} {ds es : List Nat} {b a : Nat} {n : Text} {neg : Bool} {e : Int}

theorem compare_uint8 (x y : UInt8) : compare x y = compare x.toNat y.toNat := by
  change compareOfLessAndEq x y = compareOfLessAndEq x.toNat y.toNat
  unfold compareOfLessAndEq
  simp only [UInt8.lt_iff_toNat_lt, UInt8.toNat_inj]

theorem toNat_ofNat_of_lt (h : a < 256) : (UInt8.ofNat a).toNat = a := by
  rw [UInt8.toNat_ofNat']
  exact Nat.mod_eq_of_lt h

theorem compare_ofNat (ha : a < 256) (hb : b < 256) :
    compare (UInt8.ofNat a) (UInt8.ofNat b) = compare a b := by
  rw [compare_uint8, toNat_ofNat_of_lt ha, toNat_ofNat_of_lt hb]

theorem compare_digitBytes (hd : Digits ds) (he : Digits es) :
    compare (digitBytes ds) (digitBytes es) = compare ds es := by
  induction ds generalizing es with
  | nil =>
    cases es with
    | nil => rfl
    | cons e es =>
      have := he.head
      have hlt : compare terminator (UInt8.ofNat (e + 1)) = .lt :=
        (compare_ofNat (a := 0) (by omega) (by omega)).trans (compare_lt_iff_lt.mpr (Nat.succ_pos e))
      change compare (terminator :: []) (UInt8.ofNat (e + 1) :: digitBytes es) = _
      rw [List.compare_cons_cons, hlt, List.compare_nil_cons, Ordering.lt_then]
  | cons d ds ih =>
    cases es with
    | nil =>
      have := hd.head
      have hgt : compare (UInt8.ofNat (d + 1)) terminator = .gt :=
        (compare_ofNat (b := 0) (by omega) (by omega)).trans (compare_gt_iff_gt.mpr (Nat.succ_pos d))
      change compare (UInt8.ofNat (d + 1) :: digitBytes ds) (terminator :: []) = _
      rw [List.compare_cons_cons, hgt, List.compare_cons_nil, Ordering.gt_then]
    | cons e es =>
      have := hd.head
      have := he.head
      change compare (UInt8.ofNat (d + 1) :: digitBytes ds) (UInt8.ofNat (e + 1) :: digitBytes es) = _
      rw [List.compare_cons_cons, List.compare_cons_cons, ih hd.tail he.tail,
        compare_ofNat (by omega) (by omega)]
      congr 1
      exact compare_eq_compare (fun h => by omega) (fun h => by omega) fun h => by omega

theorem decodeDigits_digitBytes (h : Digits ds) :
    decodeDigits (ds.map fun d => UInt8.ofNat (d + 1)) = some ds := by
  induction ds with
  | nil => rfl
  | cons d ds ih =>
    have hd := h.head
    have hnat := toNat_ofNat_of_lt (a := d + 1) (by omega)
    have hrange : (1 : UInt8) ≤ UInt8.ofNat (d + 1) ∧ UInt8.ofNat (d + 1) ≤ 10 := by
      rw [UInt8.le_iff_toNat_le, UInt8.le_iff_toNat_le, hnat]
      exact ⟨Nat.succ_pos d, by change d + 1 ≤ 10; omega⟩
    have hback : (UInt8.ofNat (d + 1) - 1).toNat = d := by
      rw [UInt8.toNat_sub_of_le _ _ hrange.1, hnat]
      rfl
    rw [map_cons, decodeDigits, if_pos hrange, ih h.tail]
    change some ((UInt8.ofNat (d + 1) - 1).toNat :: ds) = _
    rw [hback]

theorem findIdx_digitBytes (h : Digits ds) : (digitBytes ds).findIdx? (· == terminator) = some ds.length := by
  induction ds with
  | nil => rfl
  | cons d ds ih =>
    have hne : (UInt8.ofNat (d + 1) == terminator) = false := by
      have := h.head
      rw [beq_eq_false_iff_ne]
      intro heq
      have := congrArg UInt8.toNat heq
      rw [toNat_ofNat_of_lt (by omega)] at this
      cases this
    change (UInt8.ofNat (d + 1) :: digitBytes ds).findIdx? _ = _
    rw [findIdx?_cons, hne, ih h.tail]
    rfl

theorem digitBytes_prefix (hd : Digits ds) (he : Digits es) (h : digitBytes ds <+: digitBytes es) : ds = es := by
  obtain ⟨rest, hrest⟩ := h
  -- the terminator comes at the same place in both
  have hlen := findIdx_digitBytes he
  rw [← hrest, findIdx?_append, findIdx_digitBytes hd] at hlen
  have hbytes := append_inj_left (hrest.trans (append_nil _).symm) (by simpa [digitBytes] using hlen)
  have hdecode := decodeDigits_digitBytes hd
  rw [append_inj_left' hbytes rfl, decodeDigits_digitBytes he] at hdecode
  exact (Option.some.inj hdecode).symm

theorem compare_magnitudeBytes (ha : a < 65536) (hb : b < 65536) (hd : Digits ds) (he : Digits es) :
    compare (magnitudeBytes a ds) (magnitudeBytes b es) = (compare a b).then (compare ds es) := by
  change compare (UInt8.ofNat (a / 256) :: UInt8.ofNat (a % 256) :: digitBytes ds)
    (UInt8.ofNat (b / 256) :: UInt8.ofNat (b % 256) :: digitBytes es) = _
  rw [List.compare_cons_cons, List.compare_cons_cons, compare_digitBytes hd he,
    compare_ofNat (by omega) (by omega), compare_ofNat (by omega) (by omega), ← Ordering.then_assoc]
  congr 1
  refine then_eq_compare (fun h => by omega) (fun h => by omega) fun h => ?_
  exact compare_eq_compare (fun h => by omega) (fun h => by omega) fun h => by omega

theorem map_not_not (l : List UInt8) : (l.map (~~~ ·)).map (~~~ ·) = l := by
  have hid : ((~~~ ·) ∘ (~~~ ·) : UInt8 → UInt8) = id := funext fun _ => UInt8.not_not
  rw [map_map, hid, map_id]

theorem compare_not (x y : UInt8) : compare (~~~x) (~~~y) = compare y x := by
  rw [compare_uint8, compare_uint8, UInt8.toNat_not, UInt8.toNat_not]
  have := x.toNat_lt
  have := y.toNat_lt
  change compare (255 - x.toNat) (255 - y.toNat) = compare y.toNat x.toNat
  exact compare_eq_compare (fun h => by omega) (fun h => by omega) fun h => by omega

theorem compare_map_not {y : List UInt8} (hxy : x <+: y → x = y) (hyx : y <+: x → y = x) :
    compare (x.map (~~~ ·)) (y.map (~~~ ·)) = compare y x := by
  induction x generalizing y with
  | nil =>
    rw [← hxy nil_prefix]
    rfl
  | cons a x ih =>
    cases y with
    | nil => cases hyx nil_prefix
    | cons b y =>
      rw [List.map_cons, List.map_cons, List.compare_cons_cons, List.compare_cons_cons, compare_not]
      by_cases hab : b = a
      · subst hab
        rw [ih (fun h => (cons.inj (hxy (cons_prefix_cons.mpr ⟨rfl, h⟩))).2)
          fun h => (cons.inj (hyx (cons_prefix_cons.mpr ⟨rfl, h⟩))).2]
      · have hne : compare b a ≠ .eq := fun heq => hab (Std.compare_eq_iff_eq.mp heq)
        cases hcmp : compare b a with
        | eq => exact absurd hcmp hne
        | lt => rfl
        | gt => rfl

/-- The bytes of a canonical form whose exponent fits. -/
inductive Form : List UInt8 → Bool → Int → List Nat → Prop
  | zero : Form [classZero] false 0 []
  | negative {e : Int} {b : Nat} {ds : List Nat} (hds : ds ≠ []) (hb : biasedExponent e = some b) :
      Form (classNegative :: (magnitudeBytes b ds).map (~~~ ·)) true e ds
  | positive {e : Int} {b : Nat} {ds : List Nat} (hds : ds ≠ []) (hb : biasedExponent e = some b) :
      Form (classPositive :: magnitudeBytes b ds) false e ds

theorem biasedExponent_spec {e : Int} (h : biasedExponent e = some b) : (b : Int) = e + 1024 ∧ b < 65536 := by
  obtain ⟨s, hs, h⟩ := Option.bind_eq_some_iff.mp h
  unfold checkedAdd at hs
  split at hs
  swap
  · cases hs
  cases hs
  split at h
  · rename_i hrange
    cases h
    unfold bias at *
    omega
  · cases h

theorem magnitudeBytes_prefix {e' : Int} (ha : biasedExponent e = some a) (hb : biasedExponent e' = some b)
    (hd : Digits ds)
    (he : Digits es) (h : magnitudeBytes a ds <+: magnitudeBytes b es) : a = b ∧ ds = es := by
  have := (biasedExponent_spec ha).2
  have := (biasedExponent_spec hb).2
  obtain ⟨hhi, h⟩ := cons_prefix_cons.mp h
  obtain ⟨hlo, h⟩ := cons_prefix_cons.mp h
  have hhi := congrArg UInt8.toNat hhi
  have hlo := congrArg UInt8.toNat hlo
  rw [toNat_ofNat_of_lt (by omega), toNat_ofNat_of_lt (by omega)] at hhi hlo
  exact ⟨by omega, digitBytes_prefix hd he h⟩

theorem Form.exponent_bounds (h : Form x neg e ds) : -1024 ≤ e ∧ e ≤ 64511 := by
  cases h with
  | zero => decide
  | negative _ hb | positive _ hb =>
    obtain ⟨heq, hlt⟩ := biasedExponent_spec hb
    omega

theorem encode_form (h : encode n = some x) :
    ∃ neg e ds, canonicalize n = some (neg, e, ds) ∧ Form x neg e ds := by
  obtain ⟨⟨neg, e, ds⟩, hcanonical, h⟩ := Option.bind_eq_some_iff.mp h
  refine ⟨neg, e, ds, hcanonical, ?_⟩
  obtain ⟨hform, -⟩ := canonicalize_spec hcanonical
  dsimp only at h
  split at h
  · rename_i hempty
    cases h
    have hnil : ds = [] := by simpa using hempty
    subst hnil
    obtain ⟨rfl, rfl⟩ := hform.zero rfl
    exact .zero
  · rename_i hne
    have hne : ds ≠ [] := by simpa using hne
    obtain ⟨b, hb, hbytes⟩ := Option.bind_eq_some_iff.mp h
    cases neg with
    | true =>
      cases hbytes
      exact .negative hne hb
    | false =>
      cases hbytes
      exact .positive hne hb

variable {y : List UInt8} {neg' : Bool} {e' : Int}

theorem Form.prefix_eq (hx : Form x neg e ds) (hy : Form y neg' e' es) (hd : Digits ds)
    (he : Digits es) (h : x <+: y) : x = y ∧ ds = es := by
  cases hx with
  | zero =>
    cases hy with
    | zero => exact ⟨rfl, rfl⟩
    | negative | positive => exact absurd (cons_prefix_cons.mp h).1 (by decide)
  | negative hds hb =>
    cases hy with
    | zero | positive => exact absurd (cons_prefix_cons.mp h).1 (by decide)
    | negative hes hb' =>
      have htail := (cons_prefix_cons.mp h).2
      -- inverting once more gives back the magnitudes
      have hinv := htail.map (~~~ · : UInt8 → UInt8)
      rw [map_not_not, map_not_not] at hinv
      obtain ⟨rfl, rfl⟩ := magnitudeBytes_prefix hb hb' hd he hinv
      exact ⟨rfl, rfl⟩
  | positive hds hb =>
    cases hy with
    | zero | negative => exact absurd (cons_prefix_cons.mp h).1 (by decide)
    | positive hes hb' =>
      obtain ⟨rfl, rfl⟩ := magnitudeBytes_prefix hb hb' hd he (cons_prefix_cons.mp h).2
      exact ⟨rfl, rfl⟩

theorem scaled_pos (hne : ds ≠ []) (h : Trimmed ds) (e : Int) : 0 < fraction ds * (10 : ℚ) ^ e :=
  mul_pos (fraction_pos hne h) (by positivity)

/-- The magnitude bytes of two numbers are ordered as the magnitudes. -/
theorem compare_magnitudes {b' : Nat} (hc : Canonical neg e ds) (hc' : Canonical neg' e' es)
    (hds : ds ≠ []) (hes : es ≠ []) (hb : biasedExponent e = some b) (hb' : biasedExponent e' = some b') :
    compare (magnitudeBytes b ds) (magnitudeBytes b' es) = compare (fraction ds * (10 : ℚ) ^ e)
      (fraction es * 10 ^ e') := by
  obtain ⟨heq, hlt⟩ := biasedExponent_spec hb
  obtain ⟨heq', hlt'⟩ := biasedExponent_spec hb'
  rw [compare_magnitudeBytes hlt hlt' hc.digits hc'.digits, ← compare_scaled hc.digits hc'.digits hds
    hes hc.leads hc'.leads hc.trimmed hc'.trimmed]
  congr 1
  exact compare_eq_compare (fun h => by omega) (fun h => by omega) fun h => by omega

theorem Form.compare_eq (hx : Form x neg e ds) (hy : Form y neg' e' es) (hc : Canonical neg e ds)
    (hc' : Canonical neg' e' es) :
    compare x y = compare (canonicalValue neg e ds) (canonicalValue neg' e' es) := by
  cases hx with
  | zero =>
    have hzero : canonicalValue false 0 [] = 0 := by simp [canonicalValue]
    rw [hzero]
    cases hy with
    | zero => rw [hzero]; rfl
    | negative hes hb' =>
      have := scaled_pos hes hc'.trimmed e'
      rw [canonicalValue, signed_true, compare_gt_iff_gt.mpr (neg_lt_zero.mpr this)]
      rfl
    | positive hes hb' =>
      have := scaled_pos hes hc'.trimmed e'
      rw [canonicalValue, signed_false, compare_lt_iff_lt.mpr this]
      rfl
  | negative hds hb =>
    have hpos := scaled_pos hds hc.trimmed e
    rw [canonicalValue, signed_true]
    cases hy with
    | zero =>
      rw [canonicalValue, signed_false, fraction_nil, zero_mul, compare_lt_iff_lt.mpr (neg_lt_zero.mpr hpos)]
      rfl
    | negative hes hb' =>
      rw [canonicalValue, signed_true, compare_neg_neg, ← Std.OrientedOrd.eq_swap,
        ← compare_magnitudes hc' hc hes hds hb' hb, List.compare_cons_cons]
      refine compare_map_not (fun h => ?_) fun h => ?_
      · obtain ⟨rfl, rfl⟩ := magnitudeBytes_prefix hb hb' hc.digits hc'.digits h
        rfl
      · obtain ⟨rfl, rfl⟩ := magnitudeBytes_prefix hb' hb hc'.digits hc.digits h
        rfl
    | positive hes hb' =>
      have := scaled_pos hes hc'.trimmed e'
      rw [canonicalValue, signed_false, compare_lt_iff_lt.mpr ((neg_lt_zero.mpr hpos).trans this)]
      rfl
  | positive hds hb =>
    have hpos := scaled_pos hds hc.trimmed e
    rw [canonicalValue, signed_false]
    cases hy with
    | zero =>
      rw [canonicalValue, signed_false, fraction_nil, zero_mul, compare_gt_iff_gt.mpr hpos]
      rfl
    | negative hes hb' =>
      have := scaled_pos hes hc'.trimmed e'
      rw [canonicalValue, signed_true, compare_gt_iff_gt.mpr ((neg_lt_zero.mpr this).trans hpos)]
      rfl
    | positive hes hb' =>
      rw [canonicalValue, signed_false, ← compare_magnitudes hc hc' hds hes hb hb', List.compare_cons_cons]
      rfl

theorem skipZeros_replicate {k : Nat} {t : Text} {p : Int} (hhead : t.head? ≠ some '0')
    (hlow : -2 ^ 63 ≤ p - k) (hhigh : p ≤ i64Max) : skipZeros (replicate k '0' ++ t) p = some (t, p - k) := by
  induction k generalizing p with
  | zero =>
    rw [replicate_zero, nil_append, Nat.cast_zero, sub_zero]
    unfold skipZeros
    split
    · exact absurd rfl hhead
    · rfl
  | succ k ih =>
    push_cast at hlow
    have hadd : checkedAdd p (-1) = some (p + -1) := if_pos ⟨by omega, by omega⟩
    rw [replicate_succ, cons_append, skipZeros, hadd]
    change skipZeros (replicate k '0' ++ t) (p + -1) = _
    rw [ih (by omega) (by omega)]
    push_cast
    congr 2
    omega

theorem trimEndMatches_append {t : Text} {c : Char} (k : Nat) (hlast : t.getLast? ≠ some c) :
    trimEndMatches c (t ++ replicate k c) = t := by
  refine rdropWhile_append_all (fun x hx => by simp [eq_of_mem_replicate hx]) fun x hx => ?_
  rw [beq_eq_false_iff_ne]
  rintro rfl
  exact hlast hx

theorem digitsOf_charOf (h : Digits ds) : digitsOf (ds.map charOf) = ds := by
  unfold digitsOf
  rw [map_map]
  exact (map_congr_left fun d hd => digitOf_charOf (h d hd)).trans (map_id _)

/-- The canonical form of significant digits with zeros around them. -/
theorem canonicalForm_zeros {int frac : Text} {k j : Nat} (hc : Canonical neg e ds) (hne : ds ≠ [])
    (htext : int ++ frac = replicate k '0' ++ (ds.map charOf ++ replicate j '0'))
    (hpos : (int.length : Int) - k = e) (hlow : -2 ^ 63 ≤ e) (hhigh : (int.length : Int) ≤ i64Max) :
    canonicalForm neg int frac 0 = some (neg, e, ds) := by
  have hadd : checkedAdd int.length 0 = some (int.length : Int) := by
    unfold checkedAdd
    rw [add_zero, if_pos ⟨by omega, hhigh⟩]
  have hchar : ∀ d ∈ ds, charOf d = '0' → d = 0 := by
    intro d hd hzero
    rw [← digitOf_charOf (hc.digits d hd), hzero]
    rfl
  have hhead : (ds.map charOf ++ replicate j '0').head? ≠ some '0' := by
    obtain ⟨d, rest, rfl⟩ := exists_cons_of_ne_nil hne
    intro hzero
    have hd := hchar d (by simp) (by simpa using hzero)
    exact hc.leads (by rw [hd]; rfl)
  have hlast : (ds.map charOf).getLast? ≠ some '0' := by
    rw [getLast?_map]
    intro hzero
    obtain ⟨d, hd, hzero⟩ := Option.map_eq_some_iff.mp hzero
    rw [hchar d (mem_of_getLast? hd) hzero] at hd
    exact hc.trimmed hd
  unfold canonicalForm
  rw [hadd, htext]
  change (skipZeros _ _).bind _ = _
  rw [skipZeros_replicate hhead (by omega) hhigh, Option.bind_some]
  dsimp only
  rw [trimEndMatches_append j hlast, digitsOf_charOf hc.digits, if_neg (by simpa using hne), hpos]

/-- What `render` writes: the digits with zeros around them, a point among them. -/
theorem render_parts (hc : Canonical neg e ds) (hne : ds ≠ []) :
    ∃ (int frac : Text) (k j : Nat), AllDigits int ∧ AllDigits frac ∧
      int ++ frac = replicate k '0' ++ (ds.map charOf ++ replicate j '0') ∧ (int.length : Int) - k = e ∧
      int.length ≤ max 1 e ∧ render neg e ds = (if neg then ['-'] else []) ++
        (if frac.isEmpty then int else int ++ '.' :: frac) := by
  have hdigits : AllDigits (ds.map charOf) := by
    intro c hmem
    obtain ⟨d, hd, rfl⟩ := mem_map.mp hmem
    exact isDigit_charOf (hc.digits d hd)
  unfold render
  dsimp only
  generalize (if neg then ['-'] else []) = sign
  split_ifs with hlow hhigh
  · -- `0.` and zeros before the digits
    refine ⟨['0'], replicate (-e).toNat '0' ++ ds.map charOf, (-e).toNat + 1, 0, isDigit_of_all rfl,
      (allDigits_zeros _).append hdigits, by simp [replicate_succ], ?_, by simp, by simp [hne]⟩
    rw [length_singleton]
    omega
  · -- zeros after the digits
    refine ⟨ds.map charOf ++ replicate (e - ds.length).toNat '0', [], 0, (e - ds.length).toNat,
      hdigits.append (allDigits_zeros _), isDigit_of_all rfl, by simp, ?_, ?_, by simp⟩ <;>
      rw [length_append, length_map, length_replicate] <;> omega
  · -- the point among the digits
    refine ⟨(ds.map charOf).take e.toNat, (ds.map charOf).drop e.toNat, 0, 0, fun c hc =>
      hdigits c (mem_of_mem_take hc), fun c hc => hdigits c (mem_of_mem_drop hc), by simp, ?_, ?_, ?_⟩
    · rw [length_take, length_map]
      omega
    · rw [length_take, length_map]
      omega
    · rw [if_neg]
      simp
      omega

theorem canonicalize_render (hc : Canonical neg e ds) (hne : ds ≠ []) (hlow : -1024 ≤ e) (hhigh : e ≤ 64511) :
    canonicalize (render neg e ds) = some (neg, e, ds) := by
  obtain ⟨int, frac, k, j, hint, hfrac, htext, hpos, hlen, hrender⟩ := render_parts hc hne
  obtain ⟨m, hexp, hneg, rfl, rfl, hm⟩ := exists_plain_numeral neg hint hfrac (by rw [htext]; simp [hne])
  have hmax : (65536 : Int) ≤ i64Max := by decide
  rw [hrender, ← hm, Numeral.canonicalize_plain hexp, hneg]
  exact canonicalForm_zeros hc hne htext hpos (by omega) (by omega)

theorem decode_magnitude (hds : Digits ds) (hne : ds ≠ []) (hb : biasedExponent e = some b)
    {cls : UInt8} {rest : List UInt8} (hcls : cls = classNegative ∨ cls = classPositive)
    (hfield : (if decide (cls = classNegative) then rest.map (~~~ ·) else rest) = magnitudeBytes b ds) :
    decode (cls :: rest) = some (render (decide (cls = classNegative)) e ds) := by
  obtain ⟨hbias, hlt⟩ := biasedExponent_spec hb
  have hnz : cls ≠ classZero := by
    rcases hcls with h | h <;> rw [h] <;> decide
  have hlen : (digitBytes ds).length = ds.length + 1 := by simp [digitBytes]
  have hpos : ds.length ≠ 0 := by simpa using hne
  have htake : (digitBytes ds).take ds.length = ds.map fun d => UInt8.ofNat (d + 1) := by
    exact take_left' (length_map _)
  have hexp : (((UInt8.ofNat (b / 256)).toNat * 256 + (UInt8.ofNat (b % 256)).toNat : Nat) : Int) - bias = e := by
    rw [toNat_ofNat_of_lt (by omega), toNat_ofNat_of_lt (by omega)]
    unfold bias
    omega
  unfold decode
  simp only [if_neg hnz, if_pos hcls, hfield]
  unfold magnitudeBytes
  dsimp only
  rw [findIdx_digitBytes hds]
  dsimp only
  rw [hlen, if_neg (by simp), if_neg hpos, htake, decodeDigits_digitBytes hds, hexp]
  rfl

theorem Form.decode_render (hx : Form x neg e ds) (hd : Digits ds) :
    decode x = some (if ds = [] then ['0'] else render neg e ds) := by
  cases hx with
  | zero => decide
  | negative hds hb =>
    rw [if_neg hds]
    refine decode_magnitude hd hds hb (.inl rfl) ?_
    rw [if_pos (by decide), map_not_not]
  | positive hds hb =>
    rw [if_neg hds]
    exact decode_magnitude hd hds hb (.inr rfl) (if_neg (by decide))

theorem Form.decode_eq (hx : Form x neg e ds) (hc : Canonical neg e ds) :
    ∃ t, decode x = some t ∧ canonicalize t = some (neg, e, ds) := by
  refine ⟨_, hx.decode_render hc.digits, ?_⟩
  obtain ⟨hlow, hhigh⟩ := hx.exponent_bounds
  cases hx with
  | zero => decide
  | negative hds _ | positive hds _ =>
    rw [if_neg hds]
    exact canonicalize_render hc hds hlow hhigh

theorem decodeDigits_spec {l : List UInt8} (h : decodeDigits l = some ds) :
    Digits ds ∧ l = ds.map fun d => UInt8.ofNat (d + 1) := by
  induction l generalizing ds with
  | nil =>
    cases h
    exact ⟨by simp [Digits], rfl⟩
  | cons b l ih =>
    rw [decodeDigits] at h
    split at h
    swap
    · cases h
    rename_i hrange
    obtain ⟨es, hes, heq⟩ := Option.bind_eq_some_iff.mp h
    cases heq
    obtain ⟨hdigits, rfl⟩ := ih hes
    rw [UInt8.le_iff_toNat_le, UInt8.le_iff_toNat_le] at hrange
    have hnat : (b - 1).toNat = b.toNat - 1 := UInt8.toNat_sub_of_le _ _ (UInt8.le_iff_toNat_le.mpr hrange.1)
    have hone : (1 : UInt8).toNat = 1 := rfl
    have hten : (10 : UInt8).toNat = 10 := rfl
    refine ⟨forall_mem_cons.mpr ⟨by omega, hdigits⟩, ?_⟩
    rw [map_cons, hnat, Nat.sub_add_cancel (by omega), UInt8.ofNat_toNat]

theorem biasedExponent_sub_bias (h : b < 65536) : biasedExponent ((b : Int) - bias) = some b := by
  have hadd : checkedAdd ((b : Int) - bias) bias = some (b : Int) := by
    unfold checkedAdd i64Max
    rw [Int.sub_add_cancel, if_pos (by omega)]
  unfold biasedExponent
  rw [hadd]
  exact if_pos (by omega)

theorem decode_form {t : Text} (h : decode x = some t) : ∃ neg e ds, Form x neg e ds ∧ Digits ds := by
  unfold decode at h
  split at h
  · cases h
  rename_i cls rest
  split_ifs at h with hzero hempty hcls
  · have hnil : rest = [] := by simpa using hempty
    subst hzero hnil
    exact ⟨false, 0, [], .zero, by simp [Digits]⟩
  dsimp only at h
  split at h
  swap
  · cases h
  rename_i hi lo field hfield
  split at h
  · cases h
  rename_i pos hpos
  split_ifs at h with hlast hne
  obtain ⟨ds, hds, -⟩ := Option.bind_eq_some_iff.mp h
  obtain ⟨hdigits, htake⟩ := decodeDigits_spec hds
  -- the terminator is the last byte of the field
  have hbytes : field = digitBytes ds := by
    obtain ⟨hlt, hterm, -⟩ := findIdx?_eq_some_iff_getElem.mp hpos
    rw [digitBytes, ← htake, ← beq_iff_eq.mp hterm, ← take_succ_eq_append_getElem hlt, not_not.mp hlast,
      take_length]
  have hnil : ds ≠ [] := by
    rintro rfl
    have := congrArg length htake
    rw [length_take, length_map, length_nil] at this
    omega
  have hhi := hi.toNat_lt
  have hlo := lo.toNat_lt
  have hmagnitude : hi :: lo :: field = magnitudeBytes (hi.toNat * 256 + lo.toNat) ds := by
    rw [magnitudeBytes, ← hbytes, Nat.mul_comm, Nat.mul_add_div (by decide), Nat.div_eq_of_lt hlo,
      Nat.add_zero, Nat.mul_add_mod, Nat.mod_eq_of_lt hlo, UInt8.ofNat_toNat, UInt8.ofNat_toNat]
  have hexp := biasedExponent_sub_bias (b := hi.toNat * 256 + lo.toNat) (by omega)
  rw [hmagnitude] at hfield
  rcases hcls with rfl | rfl
  · rw [if_pos (by decide)] at hfield
    rw [← map_not_not rest, hfield]
    exact ⟨_, _, _, .negative hnil hexp, hdigits⟩
  · rw [if_neg (by decide)] at hfield
    rw [hfield]
    exact ⟨_, _, _, .positive hnil hexp, hdigits⟩

theorem encodeChecked_form (h : encodeChecked n = some x) :
    ∃ neg e ds, canonicalize n = some (neg, e, ds) ∧ Form x neg e ds ∧ ds.length ≤ maxSignificantDigits := by
  obtain ⟨⟨neg, e, ds⟩, hcanonical, h⟩ := Option.bind_eq_some_iff.mp h
  dsimp only at h
  split at h
  · cases h
  · rename_i hlen
    obtain ⟨neg', e', ds', hcanonical', hform⟩ := encode_form h
    rw [hcanonical] at hcanonical'
    cases hcanonical'
    exact ⟨neg, e, ds, hcanonical, hform, not_lt.mp hlen⟩

theorem Form.encode_eq (hx : Form x neg e ds) (h : canonicalize n = some (neg, e, ds)) :
    encode n = some x := by
  cases hx with
  | zero => simp [encode, h]
  | negative hds hb | positive hds hb => simp [encode, h, hds, hb]

theorem encodeChecked_congr {t : Text} (h : canonicalize t = canonicalize n) :
    encodeChecked t = encodeChecked n := by
  unfold encodeChecked encode
  rw [h]

/-- What an accepted text denotes, and that it denotes nothing else. -/
theorem encodeChecked_denotes (h : encodeChecked n = some x) :
    (∃ v, Denotes n v) ∧ ∀ v w, Denotes n v → Denotes n w → v = w := by
  obtain ⟨neg, e, ds, hcanonical, -, -⟩ := encodeChecked_form h
  obtain ⟨-, hdenotes, hvalue⟩ := canonicalize_spec hcanonical
  exact ⟨hdenotes, fun v w hv hw => (hvalue v hv).trans (hvalue w hw).symm⟩

theorem compare_encoded {a b : Text} {y : List UInt8} (ha : encodeChecked a = some x)
    (hb : encodeChecked b = some y) {p q : ℚ} (hp : Denotes a p) (hq : Denotes b q) :
    compare x y = compare p q := by
  obtain ⟨neg, e, ds, hcanonical, hform, -⟩ := encodeChecked_form ha
  obtain ⟨neg', e', es, hcanonical', hform', -⟩ := encodeChecked_form hb
  obtain ⟨hc, -, hvalue⟩ := canonicalize_spec hcanonical
  obtain ⟨hc', -, hvalue'⟩ := canonicalize_spec hcanonical'
  rw [hvalue p hp, hvalue' q hq]
  exact hform.compare_eq hform' hc hc'

/-- The encoding of number texts is an order embedding of the numbers they denote, no encoding
continues that of another number, and decoding gives back a text of the same number and encoding. -/
theorem encode_order_embedding (a b : Text) (x y : List UInt8) (ha : encodeChecked a = some x)
    (hb : encodeChecked b = some y) : (∃ p, Denotes a p) ∧ (∃ q, Denotes b q) ∧ ∀ p q, Denotes a p →
      Denotes b q → compare x y = compare p q ∧ (p = q → x = y) ∧ (p ≠ q → ¬ x <+: y ∧ ¬ y <+: x) ∧
      ∃ t, decode x = some t ∧ Denotes t p ∧ encodeChecked t = some x := by
  obtain ⟨neg, e, ds, hcanonical, hform, -⟩ := encodeChecked_form ha
  obtain ⟨neg', e', es, hcanonical', hform', -⟩ := encodeChecked_form hb
  obtain ⟨hc, hdenotes, hvalue⟩ := canonicalize_spec hcanonical
  obtain ⟨hc', hdenotes', -⟩ := canonicalize_spec hcanonical'
  refine ⟨hdenotes, hdenotes', fun p q hp hq => ?_⟩
  have hcompare := compare_encoded ha hb hp hq
  have heq : p = q → x = y := fun h =>
    Std.compare_eq_iff_eq.mp (hcompare.trans (compare_eq_iff_eq.mpr h))
  have hne : x = y → p = q := fun h =>
    compare_eq_iff_eq.mp (hcompare.symm.trans (Std.compare_eq_iff_eq.mpr h))
  refine ⟨hcompare, heq, fun hpq => ⟨fun h => hpq (hne ?_), fun h => hpq (hne ?_)⟩, ?_⟩
  · exact (hform.prefix_eq hform' hc.digits hc'.digits h).1
  · exact (hform'.prefix_eq hform hc'.digits hc.digits h).1.symm
  · obtain ⟨t, hdecode, ht⟩ := hform.decode_eq hc
    obtain ⟨-, ⟨v, hv⟩, hvalue''⟩ := canonicalize_spec ht
    refine ⟨t, hdecode, ?_, (encodeChecked_congr (ht.trans hcanonical.symm)).trans ha⟩
    rw [hvalue p hp, ← hvalue'' v hv]
    exact hv

theorem encode_order_embedding_spellings : encodeChecked "-1.50e1".toList =
      some [2, 251, 253, 253, 249, 255] ∧ encodeChecked " 007 ".toList = some [4, 4, 1, 8, 0] ∧
      ∀ p q, Denotes "-1.50e1".toList p → Denotes " 007 ".toList q → compare p q = .lt := by
  have ha : encodeChecked "-1.50e1".toList = some [2, 251, 253, 253, 249, 255] := by decide +kernel
  have hb : encodeChecked " 007 ".toList = some [4, 4, 1, 8, 0] := by decide +kernel
  refine ⟨ha, hb, fun p q hp hq => ?_⟩
  exact ((encode_order_embedding _ _ _ _ ha hb).2.2 p q hp hq).1.symm

/-- A byte string is decoded exactly if it lays out a sign, an exponent and digits; it is the encoding of an
accepted number exactly if the digits moreover neither begin nor end in a zero and are at most 38. -/
theorem decode_image (x : List UInt8) :
    ((∃ t, decode x = some t) ∧ isEncoded x = true ↔ ∃ neg e ds, Form x neg e ds ∧ Digits ds) ∧
    ((∃ t, encodeChecked t = some x ∧ encode t = some x) ↔ ∃ neg e ds, Form x neg e ds ∧ Digits ds ∧
      Leads ds ∧ Trimmed ds ∧ ds.length ≤ maxSignificantDigits) := by
  refine ⟨⟨fun ⟨⟨t, ht⟩, _⟩ => decode_form ht, fun ⟨neg, e, ds, hform, hdigits⟩ => ?_⟩,
    ⟨fun ⟨t, ht, _⟩ => ?_, fun ⟨neg, e, ds, hform, hdigits, hleads, htrimmed, hlen⟩ => ?_⟩⟩
  · have hdecode := hform.decode_render hdigits
    exact ⟨⟨_, hdecode⟩, by rw [isEncoded, hdecode]; rfl⟩
  · obtain ⟨neg, e, ds, hcanonical, hform, hlen⟩ := encodeChecked_form ht
    obtain ⟨hc, -⟩ := canonicalize_spec hcanonical
    exact ⟨neg, e, ds, hform, hc.digits, hc.leads, hc.trimmed, hlen⟩
  · have hzero : ds = [] → neg = false ∧ e = 0 := by
      intro hnil
      cases hform with
      | zero => exact ⟨rfl, rfl⟩
      | negative hne | positive hne => exact absurd hnil hne
    obtain ⟨t, -, ht⟩ := hform.decode_eq ⟨hdigits, hleads, htrimmed, hzero⟩
    have hencode := hform.encode_eq ht
    refine ⟨t, ?_, hencode⟩
    unfold encodeChecked
    rw [ht]
    exact (if_neg (not_lt.mpr hlen)).trans hencode

/-- The digit zero alone is decoded, though no number is encoded so. -/
theorem decode_leading_zero : isEncoded [4, 4, 1, 1, 0] = true ∧ ∀ t, encode t ≠ some [4, 4, 1, 1, 0] := by
  refine ⟨by decide, fun t ht => ?_⟩
  obtain ⟨neg, e, ds, hcanonical, hform⟩ := encode_form ht
  obtain ⟨hc, -⟩ := canonicalize_spec hcanonical
  have hzero : Form [4, 4, 1, 1, 0] false 1 [0] := @Form.positive 1 1025 [0] (by decide) (by decide)
  obtain ⟨-, rfl⟩ := hform.prefix_eq hzero hc.digits (by simp [Digits]) prefix_rfl
  exact hc.leads rfl

end AnimusDb.Items
