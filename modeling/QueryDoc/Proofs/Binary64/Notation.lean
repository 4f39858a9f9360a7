import QueryDoc.Proofs.Binary64.Reading

/-!
# QueryDoc.Proofs.Binary64.Notation

Which finite numbers are written positionally: zero, and those of an absolute value from
`0.0001` up to, but without, ten to the sixteenth (`Binary64.isPositional_shortest_iff`).

The notation is chosen by the magnitude of the shortest decimal number, which is another number
than the one that it is written for. Both lie in one interval, and the bounds lie in the
intervals of two numbers only, whose shortest decimal numbers are the bounds themselves.
-/

namespace QueryDoc.Binary64

/-- The absolute value of a finite number. -/
def absolute (x : Binary64) : ℚ := x.significand * 2 ^ x.exponent

theorem absolute_eq (x : Binary64) : x.absolute = 4 * x.significand * 2 ^ (x.exponent - 2) := by
  have hpow := Covers.two_zpow_eq x.exponent 0
  norm_num at hpow
  rw [absolute, hpow]
  ring

/-- A number lies in its own interval. -/
theorem covers_absolute (x : Binary64) : x.Covers x.absolute := by
  have hunit : (0 : ℚ) < 2 ^ (x.exponent - 2) := zpow_pos two_pos _
  have hgap : (1 : ℚ) ≤ x.gapBelow := by
    obtain h | h := x.gapBelow_mem <;> rw [h] <;> norm_num
  rw [absolute_eq]
  refine ⟨?_, ?_, fun _ => ⟨?_, ?_⟩⟩ <;> nlinarith

/-! ## Bounds -/

namespace Covers

variable {x : Binary64} {r s bound : ℚ} {q : Int}

/-- Numbers of one interval lie on one side of a bound if the bound is not a number of the same
exponent. -/
theorem lt_iff_of_exponent (hr : x.Covers r) (hs : x.Covers s) (hq : -1074 ≤ q)
    (hlow : (2 : ℚ) ^ (q + 52) ≤ bound) (hhigh : bound ≤ (2 ^ 54 - 2) * 2 ^ (q - 1))
    (h : x.exponent = q → (r < bound ↔ s < bound)) : r < bound ↔ s < bound := by
  -- The numbers of lower exponents, and those of higher ones.
  have hbelow {t : ℚ} (ht : x.Covers t) (hlt : x.exponent < q) : t < bound :=
    calc t < 2 ^ (x.exponent + 53) := ht.lt_two_zpow
      _ ≤ 2 ^ (q + 52) := zpow_le_zpow_right₀ one_le_two (by omega)
      _ ≤ bound := hlow
  have habove {t : ℚ} (ht : x.Covers t) (hgt : q < x.exponent) : bound ≤ t := by
    have hm : (2 ^ 52 : ℚ) ≤ x.significand := by exact_mod_cast le_significand (by omega)
    have hgap := x.gapBelow_le_two
    calc bound ≤ (2 ^ 54 - 2) * 2 ^ (q - 1) := hhigh
      _ ≤ (2 ^ 54 - 2) * 2 ^ (x.exponent - 2) :=
        mul_le_mul_of_nonneg_left (zpow_le_zpow_right₀ one_le_two (by omega)) (by norm_num)
      _ ≤ (4 * x.significand - x.gapBelow) * 2 ^ (x.exponent - 2) :=
        mul_le_mul_of_nonneg_right (by linarith) (zpow_pos two_pos _).le
      _ ≤ t := ht.low
  rcases lt_trichotomy x.exponent q with hlt | heq | hgt
  · exact iff_of_true (hbelow hr hlt) (hbelow hs hlt)
  · exact h heq
  · exact iff_of_false (habove hr hgt).not_gt (habove hs hgt).not_gt

end Covers

/-! ## Numbers next to a bound -/

/-- The shortest decimal number of a number that is no power of two. -/
theorem shortest_of_parts {x : Binary64} {m : Nat} {q : Int} (hm : x.significand = m)
    (hq : x.exponent = q) (hzero : m ≠ 0) (hgap : m ≠ 1 <<< 52) (point : Nat × Nat)
    (h : (Interval.mk ((4 * m - 2) * unit (q - 2)) (4 * m * unit (q - 2))
      ((4 * m + 2) * unit (q - 2)) (decide (m % 2 = 0))).coarsest
        (Decimal.digits (4 * m * unit (q - 2))).length = point) :
    x.shortest = ⟨x.isNegative, point.1, min (q - 2) 0 + point.2⟩ := by
  have hx : ¬ x.isZero = true := fun hx => hzero (hm.symm.trans (significand_eq_zero_iff.mpr hx))
  rw [shortest, if_neg hx, interval_eq, gapBelow, if_neg fun h => hgap (hm.symm.trans h.1), hm, hq]
  simp only [h]

/-- Ten to the sixteenth is its own shortest decimal number. -/
theorem absolute_shortest_upper {x : Binary64} (hm : x.significand = 5 * 10 ^ 15)
    (hq : x.exponent = 1) : x.shortest.absolute = 10 ^ 16 := by
  rw [shortest_of_parts hm hq (by decide) (by decide) (1, 17) (by decide +kernel),
    Decimal.absolute]
  norm_num

/-- The number closest to `0.0001` has this as its shortest decimal number. -/
theorem absolute_shortest_lower {x : Binary64} (hm : x.significand = 7378697629483821)
    (hq : x.exponent = -66) : x.shortest.absolute = 10 ^ (-4 : Int) := by
  rw [shortest_of_parts hm hq (by decide) (by decide) (1, 64) (by decide +kernel),
    Decimal.absolute]
  norm_num

theorem absolute_shortest_lt_upper {x : Binary64} (hx : x.isZero = false) :
    x.shortest.absolute < 10 ^ 16 ↔ x.absolute < 10 ^ 16 := by
  have hcovers := covers_shortest hx
  refine hcovers.lt_iff_of_exponent x.covers_absolute (q := 1) (by decide) (by norm_num)
    (by norm_num) fun hq => ?_
  have hlow := hcovers.low
  have hhigh := hcovers.high
  have hgap := x.gapBelow_le_two
  rw [hq] at hlow hhigh
  rw [absolute, hq]
  norm_num at hlow hhigh ⊢
  rcases lt_trichotomy x.significand (5 * 10 ^ 15) with hlt | heq | hgt
  · have hm : (x.significand : ℚ) + 1 ≤ 5 * 10 ^ 15 := by exact_mod_cast hlt
    exact iff_of_true (by linarith) (by linarith)
  · rw [absolute_shortest_upper heq hq, heq]
    norm_num
  · have hm : 5 * 10 ^ 15 + 1 ≤ (x.significand : ℚ) := by exact_mod_cast hgt
    exact iff_of_false (by linarith) (by linarith)

theorem absolute_shortest_lt_lower {x : Binary64} (hx : x.isZero = false) :
    x.shortest.absolute < 10 ^ (-4 : Int) ↔ x.absolute < 10 ^ (-4 : Int) := by
  have hcovers := covers_shortest hx
  refine hcovers.lt_iff_of_exponent x.covers_absolute (q := -66) (by decide) (by norm_num)
    (by norm_num) fun hq => ?_
  have hlow := hcovers.low
  have hhigh := hcovers.high
  have hgap := x.gapBelow_le_two
  rw [hq] at hlow hhigh
  rw [absolute, hq]
  norm_num at hlow hhigh ⊢
  rcases lt_trichotomy x.significand 7378697629483821 with hlt | heq | hgt
  · have hm : (x.significand : ℚ) + 1 ≤ 7378697629483821 := by exact_mod_cast hlt
    exact iff_of_true (by linarith) (by linarith)
  · rw [absolute_shortest_lower heq hq, heq]
    norm_num
  · have hm : 7378697629483821 + 1 ≤ (x.significand : ℚ) := by exact_mod_cast hgt
    exact iff_of_false (by linarith) (by linarith)

/-! ## Notation -/

/-- A number other than zero is written positionally by its own absolute value. -/
theorem isPositional_shortest_iff {x : Binary64} (hx : x.isZero = false) :
    IsPositional x.shortest.magnitude ↔ 10 ^ (-4 : Int) ≤ x.absolute ∧ x.absolute < 10 ^ 16 := by
  have hpos : 0 < x.shortest.coefficient := Nat.pos_of_ne_zero fun hzero => by
    rw [coefficient_shortest_eq_zero hzero] at hx
    contradiction
  obtain ⟨hbelow, habove⟩ := Decimal.absolute_bounds hpos
  have hten : (1 : ℚ) < 10 := by norm_num
  rw [← absolute_shortest_lt_upper hx, ← not_lt, ← absolute_shortest_lt_lower hx, not_lt,
    IsPositional]
  constructor
  · rintro ⟨hlow, hhigh⟩
    refine ⟨le_trans (zpow_le_zpow_right₀ hten.le (by omega)) hbelow, habove.trans_le ?_⟩
    exact_mod_cast zpow_le_zpow_right₀ hten.le hhigh
  · rintro ⟨hlow, hhigh⟩
    have hmin := (zpow_lt_zpow_iff_right₀ hten).mp (hlow.trans_lt habove)
    have hmax := (zpow_lt_zpow_iff_right₀ hten).mp
      (hbelow.trans_lt (show x.shortest.absolute < 10 ^ (16 : Int) by exact_mod_cast hhigh))
    omega

end QueryDoc.Binary64
