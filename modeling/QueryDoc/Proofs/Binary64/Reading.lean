import QueryDoc.Proofs.Binary64.Rounding
import QueryDoc.Proofs.Decimal

/-!
# QueryDoc.Proofs.Binary64.Reading

Finite numbers read back from their shortest texts. The shortest decimal number of a finite
number lies in its interval (`Binary64.covers_shortest`), so that every decimal number of the
same absolute value is rounded to it (`Binary64.ofDecimal_of_absolute`). All the texts made
from it are numerals of that absolute value.
-/

namespace QueryDoc.Binary64

/-! ## The shortest decimal number -/

/-- A quarter of the distance between neighbours is this multiple of a power of ten. -/
theorem unit_mul_pow (u : Int) : (unit u : ℚ) * 10 ^ min u 0 = 2 ^ u := by
  unfold unit
  split
  · next hu =>
    obtain ⟨k, rfl⟩ : ∃ k : Nat, u = -k := ⟨(-u).toNat, by omega⟩
    have hpow : ((Nat.pow 5 k : Nat) : ℚ) = 5 ^ k := Nat.cast_pow 5 k
    rw [min_eq_left hu.le, neg_neg, Int.toNat_natCast, hpow, zpow_neg, zpow_neg, zpow_natCast,
      zpow_natCast, ← div_eq_mul_inv, ← one_div, ← div_pow, ← one_div_pow]
    norm_num
  · next hu =>
    obtain ⟨k, rfl⟩ := Int.eq_ofNat_of_zero_le (not_lt.mp hu)
    rw [min_eq_right (not_lt.mp hu), zpow_zero, mul_one, Int.toNat_natCast, Nat.shiftLeft_eq,
      one_mul, zpow_natCast]
    exact_mod_cast rfl

/-- The search ends at a point of the interval, the value itself if there is no coarser one. -/
theorem Interval.has_coarsest {i : Interval} (h : i.has i.value = true) (steps : Nat) :
    i.has ((i.coarsest steps).1 * 10 ^ (i.coarsest steps).2) = true := by
  induction steps with
  | zero => simpa [coarsest] using h
  | succ k ih =>
    simp only [coarsest]
    split
    · next hdown => exact hdown.1
    · split
      · next hup => exact hup
      · exact ih

theorem unit_pos (u : Int) : 0 < unit u := by
  unfold unit
  split
  · exact Nat.pow_pos (by decide)
  · rw [Nat.shiftLeft_eq, one_mul]
    exact Nat.two_pow_pos _

/-- The neighbour below is as far away as the one above, or half as far. -/
theorem gapBelow_mem (x : Binary64) : x.gapBelow = 1 ∨ x.gapBelow = 2 := by
  unfold gapBelow
  split
  · exact .inl rfl
  · exact .inr rfl

/-- The ends of the interval are halfway to the neighbours. -/
theorem interval_eq (x : Binary64) :
    x.interval =
      { low := (4 * x.significand - x.gapBelow) * unit (x.exponent - 2)
        value := 4 * x.significand * unit (x.exponent - 2)
        high := (4 * x.significand + 2) * unit (x.exponent - 2)
        closed := decide (x.significand % 2 = 0) } := rfl

theorem Interval.has_iff {i : Interval} {p : Nat} : i.has p = true ↔
    (i.low ≤ p ∧ p ≤ i.high) ∧ (i.closed = false → i.low < p ∧ p < i.high) := by
  unfold has
  cases i.closed
  · simpa using fun hlow hhigh => ⟨le_of_lt hlow, le_of_lt hhigh⟩
  · simp

/-- A float is in its own interval. -/
theorem has_value (x : Binary64) : x.interval.has x.interval.value = true := by
  have hunit := unit_pos (x.exponent - 2)
  have hgap := x.gapBelow_mem
  have hhigh : 4 * x.significand * unit (x.exponent - 2) <
      (4 * x.significand + 2) * unit (x.exponent - 2) :=
    Nat.mul_lt_mul_of_pos_right (Nat.lt_add_of_pos_right two_pos) hunit
  rw [Interval.has_iff, interval_eq]
  refine ⟨⟨Nat.mul_le_mul_right _ (Nat.sub_le _ _), hhigh.le⟩, fun hclosed => ⟨?_, hhigh⟩⟩
  have hodd := of_decide_eq_false hclosed
  exact Nat.mul_lt_mul_of_pos_right (by omega) hunit

/-- A point of the interval in whole units, as a real number. -/
theorem covers_of_has {x : Binary64} {p : Nat} (h : x.interval.has p = true) :
    x.Covers (p * 10 ^ min (x.exponent - 2) 0) := by
  rw [Interval.has_iff, interval_eq] at h
  obtain ⟨⟨hlow, hhigh⟩, hinside⟩ := h
  have hten : (0 : ℚ) < 10 ^ min (x.exponent - 2) 0 := zpow_pos (by norm_num) _
  have hscale (a : ℚ) : a * 2 ^ (x.exponent - 2) =
      a * unit (x.exponent - 2) * 10 ^ min (x.exponent - 2) 0 := by
    rw [mul_assoc, unit_mul_pow]
  -- Below zero the whole number stops at zero.
  have hgap : (4 * x.significand - x.gapBelow : ℚ) * unit (x.exponent - 2) ≤
      ((4 * x.significand - x.gapBelow : Nat) : ℚ) * unit (x.exponent - 2) := by
    refine mul_le_mul_of_nonneg_right ?_ (Nat.cast_nonneg _)
    rw [sub_le_iff_le_add]
    exact_mod_cast le_tsub_add
  refine ⟨?_, ?_, fun hodd => ?_⟩
  · rw [hscale]
    exact mul_le_mul_of_nonneg_right (hgap.trans (by exact_mod_cast hlow)) hten.le
  · rw [hscale]
    exact mul_le_mul_of_nonneg_right (by exact_mod_cast hhigh) hten.le
  · obtain ⟨hlow, hhigh⟩ := hinside (decide_eq_false (by omega))
    rw [hscale, hscale]
    exact ⟨mul_lt_mul_of_pos_right (hgap.trans_lt (by exact_mod_cast hlow)) hten,
      mul_lt_mul_of_pos_right (by exact_mod_cast hhigh) hten⟩

/-- **The shortest decimal number** of a number other than zero lies in its interval. -/
theorem covers_shortest {x : Binary64} (hx : x.isZero = false) :
    x.Covers x.shortest.absolute := by
  have hpoint := covers_of_has (Interval.has_coarsest x.has_value
    (Decimal.digits x.interval.value).length)
  rw [shortest, if_neg (by rw [hx]; decide)]
  simp only [Decimal.absolute, zpow_add₀ (show (10 : ℚ) ≠ 0 by norm_num), zpow_natCast]
  push_cast at hpoint
  rwa [mul_assoc, mul_comm (10 ^ _ : ℚ)] at hpoint

/-- The shortest decimal has the sign of the float. -/
theorem shortest_negative (x : Binary64) : x.shortest.negative = x.isNegative := by
  unfold shortest
  split <;> rfl

/-! ## Reading decimal numbers -/

theorem significand_eq_zero_iff {x : Binary64} : x.significand = 0 ↔ x.isZero = true := by
  simp only [significand, isZero, Nat.shiftLeft_eq, decide_eq_true_eq]
  split <;> omega

theorem one_le_significand {x : Binary64} (hx : x.isZero = false) : 1 ≤ x.significand := by
  refine Nat.one_le_iff_ne_zero.mpr fun hzero => ?_
  rw [significand_eq_zero_iff.mp hzero] at hx
  contradiction

/-- The interval of a number other than zero begins above zero. -/
theorem Covers.two_zpow_le {x : Binary64} {r : ℚ} (h : x.Covers r) (hx : x.isZero = false) :
    (2 : ℚ) ^ (x.exponent - 2) ≤ r := by
  have hm : (1 : ℚ) ≤ x.significand := by exact_mod_cast one_le_significand hx
  have hgap := x.gapBelow_le_two
  exact (le_mul_of_one_le_left (zpow_pos two_pos _).le (by linarith)).trans h.low

/-- The four hundredth power of ten is beyond all finite floats. -/
theorem two_pow_lt_ten_pow : (2 : ℚ) ^ 1080 < 10 ^ 400 := by
  rw [show 1080 = 135 * 8 from rfl, show 400 = 50 * 8 from rfl, pow_mul, pow_mul]
  exact pow_lt_pow_left₀ (by norm_num) (by norm_num) (by norm_num)

/-- Finite numbers are far from where magnitudes are cut off. -/
theorem Covers.bounds {x : Binary64} {r : ℚ} (h : x.Covers r) (hfinite : x.isFinite = true)
    (hx : x.isZero = false) : (10 : ℚ) ^ (-400 : Int) < r ∧ r < 10 ^ (400 : Int) := by
  have hmin := x.le_exponent
  have hmax := exponent_le hfinite
  constructor
  · calc (10 : ℚ) ^ (-400 : Int) = (10 ^ 400)⁻¹ := zpow_neg_coe_of_pos 10 (by decide)
      _ < (2 ^ 1080)⁻¹ := inv_strictAnti₀ (by positivity) two_pow_lt_ten_pow
      _ = 2 ^ (-1080 : Int) := (zpow_neg_coe_of_pos 2 (by decide)).symm
      _ ≤ 2 ^ (x.exponent - 2) := zpow_le_zpow_right₀ one_le_two (by omega)
      _ ≤ r := h.two_zpow_le hx
  · calc r < 2 ^ (x.exponent + 53) := h.lt_two_zpow
      _ ≤ 2 ^ (1080 : Int) := zpow_le_zpow_right₀ one_le_two (by omega)
      _ < 10 ^ (400 : Int) := by exact_mod_cast two_pow_lt_ten_pow

/-- A zero is read back with its sign. -/
theorem ofMagnitude_zero {x : Binary64} (hx : x.isZero = true) :
    ofMagnitude x.isNegative 0 = x := by
  obtain ⟨hbiased, hfraction⟩ := of_decide_eq_true hx
  have hfinite : x.isFinite = true := decide_eq_true (by rw [hbiased]; decide)
  have hself := ofMagnitude_self hfinite
  rwa [significand_eq_zero_iff.mpr hx, exponent, hbiased] at hself

/-- A decimal number in the interval of a number other than zero is rounded to it. -/
theorem ofDecimal_of_covers {x : Binary64} (hfinite : x.isFinite = true) (hx : x.isZero = false)
    {d : Decimal} (hnegative : d.negative = x.isNegative) (h : x.Covers d.absolute) :
    ofDecimal d = x := by
  have hpos : 0 < d.coefficient := by
    refine Nat.pos_of_ne_zero fun hcoefficient => ?_
    have := (zpow_pos two_pos _).trans_le (h.two_zpow_le hx)
    simp [Decimal.absolute, hcoefficient] at this
  obtain ⟨hlow, hhigh⟩ := h.bounds hfinite hx
  obtain ⟨hbelow, habove⟩ := Decimal.absolute_bounds hpos
  have hmin : -400 < d.magnitude :=
    (zpow_lt_zpow_iff_right₀ (by norm_num)).mp (hlow.trans habove)
  have hmax : d.magnitude - 1 < 400 :=
    (zpow_lt_zpow_iff_right₀ (by norm_num)).mp (hbelow.trans_lt hhigh)
  have hpow (k : Nat) : ((Nat.pow 10 k : Nat) : ℚ) = 10 ^ k := Nat.cast_pow 10 k
  rw [ofDecimal, if_neg (by omega), if_neg (by omega), hnegative]
  unfold Decimal.absolute at h
  split
  · next hexponent =>
    obtain ⟨k, hk⟩ := Int.eq_ofNat_of_zero_le hexponent
    refine nearest_of_covers hfinite ?_ one_pos ?_
    · exact Nat.mul_pos hpos (Nat.pow_pos (by decide))
    · rw [hk, zpow_natCast] at h
      rwa [hk, Int.toNat_natCast, Nat.cast_mul, hpow, Nat.cast_one, div_one]
  · next hexponent =>
    obtain ⟨k, hk⟩ : ∃ k : Nat, d.exponent = -k := ⟨(-d.exponent).toNat, by omega⟩
    refine nearest_of_covers hfinite hpos (Nat.pow_pos (by decide)) ?_
    rw [hk, zpow_neg, zpow_natCast, ← div_eq_mul_inv] at h
    rwa [hk, neg_neg, Int.toNat_natCast, hpow]

/-- **Reading**: a decimal number with the sign of a finite number and the absolute value of its
shortest decimal number is rounded to it. -/
theorem ofDecimal_of_absolute {x : Binary64} (hfinite : x.isFinite = true) {d : Decimal}
    (hnegative : d.negative = x.isNegative) (habsolute : d.absolute = x.shortest.absolute) :
    ofDecimal d = x := by
  cases hzero : x.isZero with
  | true =>
    have hten (e : Int) : (10 : ℚ) ^ e ≠ 0 := zpow_ne_zero e (by norm_num)
    have hcoefficient : d.coefficient = 0 := by
      simpa [Decimal.absolute, shortest, hzero, hten] using habsolute
    rw [ofDecimal, if_pos (.inl hcoefficient), hnegative, ofMagnitude_zero hzero]
  | false => exact ofDecimal_of_covers hfinite hzero hnegative (habsolute ▸ covers_shortest hzero)

/-! ## Shortest texts -/

/-- The numeral that a finite number is written as. -/
def shortNumeral (x : Binary64) : Numeral :=
  let d := x.shortest
  if d.coefficient = 0 ∨ IsPositional d.magnitude then d.positionalNumeral.withPoint
  else d.scientificNumeral

/-- Only a zero has no digits. -/
theorem coefficient_shortest_eq_zero {x : Binary64} (h : x.shortest.coefficient = 0) :
    x.isZero = true := by
  by_contra hzero
  have hcovers := covers_shortest (eq_false_of_ne_true hzero)
  have := (zpow_pos two_pos _).trans_le (hcovers.two_zpow_le (eq_false_of_ne_true hzero))
  simp [Decimal.absolute, h] at this

theorem exponent_shortest {x : Binary64} (h : x.shortest.coefficient = 0) :
    x.shortest.exponent ≤ 0 := by
  rw [shortest, if_pos (coefficient_shortest_eq_zero h)]

/-- The shortest text is a numeral. -/
theorem wellFormed_shortNumeral (x : Binary64) : x.shortNumeral.WellFormed := by
  simp only [shortNumeral]
  split
  · exact (Decimal.wellFormed_positionalNumeral exponent_shortest).withPoint
  · next h => exact Decimal.wellFormed_scientificNumeral (Nat.pos_of_ne_zero fun hz => h (.inl hz))

/-- A point is only added to whole numbers, as the others have one. -/
theorem text_shortNumeral (x : Binary64) : x.shortNumeral.text = x.shortText := by
  simp only [shortNumeral, shortText]
  split
  · rw [← Decimal.text_positionalNumeral]
    split
    · next hx =>
      exact Numeral.text_withPoint (Decimal.fraction_positionalNumeral.mpr hx)
        (Decimal.power_positionalNumeral _)
    · next hx => rw [Numeral.withPoint, if_neg (mt Decimal.fraction_positionalNumeral.mp hx)]
  · exact Decimal.text_scientificNumeral _

/-- The shortest text says what the shortest decimal does, apart from the sign. -/
theorem absolute_shortNumeral (x : Binary64) :
    x.shortNumeral.decimal.absolute = x.shortest.absolute := by
  simp only [shortNumeral]
  split
  · rw [Numeral.absolute_withPoint, Decimal.absolute_positionalNumeral]
  · rw [Decimal.decimal_scientificNumeral]

/-- The shortest text has the sign of the float. -/
theorem negative_shortNumeral (x : Binary64) : x.shortNumeral.negative = x.isNegative := by
  rw [← shortest_negative, shortNumeral]
  split <;> simp [Decimal.scientificNumeral]

/-- **Round trip**: a finite number is read back from its shortest text. -/
theorem read?_shortText {x : Binary64} (hx : x.isFinite = true) :
    (Decimal.read? x.shortText).map ofDecimal = some x := by
  rw [← text_shortNumeral, Numeral.read?_text x.wellFormed_shortNumeral, Option.map_some,
    ofDecimal_of_absolute hx x.negative_shortNumeral x.absolute_shortNumeral]

/-- A point in the text changes nothing. -/
theorem read?_pointed_shortText {x : Binary64} (hx : x.isFinite = true) :
    (Decimal.read? (pointed x.shortText)).map ofDecimal = some x := by
  have hform := x.wellFormed_shortNumeral
  have hnegative := (Numeral.negative_withPoint x.shortNumeral).trans x.negative_shortNumeral
  have habsolute := (Numeral.absolute_withPoint x.shortNumeral).trans x.absolute_shortNumeral
  rw [← text_shortNumeral, Numeral.pointed_text hform, Numeral.read?_text hform.withPoint,
    Option.map_some, ofDecimal_of_absolute hx hnegative habsolute]

end QueryDoc.Binary64
