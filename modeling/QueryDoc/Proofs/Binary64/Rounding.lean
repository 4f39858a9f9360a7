import Mathlib
import QueryDoc.Binary64

/-!
# QueryDoc.Proofs.Binary64.Rounding

Rounding quotients to binary numbers. A number stands for an interval of reals around it
(`Binary64.Covers`), and a quotient in the interval of a finite number is rounded to that
number (`Binary64.nearest_of_covers`).

A quotient is rounded as a whole multiple of a power of two. Where it lies below a power of two
that it is rounded to, that is half the power that the number itself is a multiple of.
-/

namespace QueryDoc.Binary64

/-! ## Quotients -/

theorem scaleDown_spec (num : Nat) {den : Nat} (hden : 0 < den) (q : Int) :
    0 < (scaleDown num den q).2 ∧
      ((scaleDown num den q).1 : ℚ) / (scaleDown num den q).2 = num / den / 2 ^ q := by
  unfold scaleDown
  split
  · next hq =>
    obtain ⟨k, rfl⟩ := Int.eq_ofNat_of_zero_le hq
    simp only [Int.toNat_natCast, Nat.shiftLeft_eq]
    refine ⟨by positivity, ?_⟩
    push_cast
    rw [zpow_natCast, div_div]
  · next hq =>
    obtain ⟨k, hk⟩ : ∃ k : Nat, q = -k := ⟨(-q).toNat, by omega⟩
    subst hk
    simp only [neg_neg, Int.toNat_natCast, Nat.shiftLeft_eq]
    refine ⟨hden, ?_⟩
    push_cast
    rw [zpow_neg, zpow_natCast]
    field_simp

/-- Rounding to a whole number `m`, with all sides multiplied by twice the divisor. -/
theorem roundQuotient_eq_of_mul {n d m : Nat} (hd : 0 < d) (hlow : 2 * m * d ≤ 2 * n + d)
    (hhigh : 2 * n ≤ 2 * m * d + d)
    (hodd : m % 2 = 1 → 2 * m * d < 2 * n + d ∧ 2 * n < 2 * m * d + d) :
    roundQuotient n d = m := by
  have hrest := Nat.mod_lt n hd
  have hdiv := Nat.div_add_mod n d
  simp only [roundQuotient]
  generalize n % d = rest at *
  generalize n / d = k at *
  -- The quotient lies between `m - 1` and `m + 1`.
  have hk : m ≤ k + 1 := by
    by_contra hlt
    have := Nat.mul_le_mul_right d (show k + 2 ≤ m by omega)
    nlinarith
  have hk' : k ≤ m := by
    by_contra hlt
    have := Nat.mul_le_mul_right d (show m + 1 ≤ k by omega)
    nlinarith
  rcases Nat.lt_or_ge k m with hlt | hge
  · obtain rfl : m = k + 1 := by omega
    rw [if_pos]
    rcases Nat.lt_or_ge d (2 * rest) with h | h
    · exact .inl h
    · have heq : d = 2 * rest := by nlinarith
      refine .inr ⟨heq, ?_⟩
      by_contra heven
      have := (hodd (by omega)).1
      nlinarith
  · obtain rfl : k = m := by omega
    rw [if_neg]
    rintro (h | ⟨heq, hk⟩)
    · nlinarith
    · have := (hodd hk).2
      nlinarith

/-- A quotient is rounded to a whole number that is at most one half away, and less than that
from an odd one. -/
theorem roundQuotient_eq {n d m : Nat} (hd : 0 < d) (hlow : (m : ℚ) - 1 / 2 ≤ n / d)
    (hhigh : (n : ℚ) / d ≤ m + 1 / 2)
    (hodd : m % 2 = 1 → (m : ℚ) - 1 / 2 < n / d ∧ (n : ℚ) / d < m + 1 / 2) :
    roundQuotient n d = m := by
  have hd' : (0 : ℚ) < d := by exact_mod_cast hd
  rw [le_div_iff₀ hd'] at hlow
  rw [div_le_iff₀ hd'] at hhigh
  have hlow' : (2 * m * d : ℚ) ≤ 2 * n + d := by linarith
  have hhigh' : (2 * n : ℚ) ≤ 2 * m * d + d := by linarith
  refine roundQuotient_eq_of_mul hd (by exact_mod_cast hlow') (by exact_mod_cast hhigh')
    fun hm => ?_
  obtain ⟨hl, hh⟩ := hodd hm
  rw [lt_div_iff₀ hd'] at hl
  rw [div_lt_iff₀ hd'] at hh
  have hl' : (2 * m * d : ℚ) < 2 * n + d := by linarith
  have hh' : (2 * n : ℚ) < 2 * m * d + d := by linarith
  exact ⟨by exact_mod_cast hl', by exact_mod_cast hh'⟩

/-! ## The exponent of a quotient -/

theorem two_zpow_lt_iff {a b : Int} : (2 : ℚ) ^ a < 2 ^ b ↔ a < b :=
  zpow_lt_zpow_iff_right₀ one_lt_two

/-- The logarithms of both parts enclose a quotient between powers of two. -/
theorem quotient_bounds {num den : Nat} (hnum : 0 < num) (hden : 0 < den) :
    (2 : ℚ) ^ ((num.log2 : Int) - den.log2 - 1) < num / den ∧
      (num : ℚ) / den < 2 ^ ((num.log2 : Int) - den.log2 + 1) := by
  have hnum₁ : (2 : ℚ) ^ num.log2 ≤ num := by exact_mod_cast Nat.log2_self_le hnum.ne'
  have hnum₂ : (num : ℚ) < 2 ^ (num.log2 + 1) := by exact_mod_cast Nat.lt_log2_self
  have hden₁ : (2 : ℚ) ^ den.log2 ≤ den := by exact_mod_cast Nat.log2_self_le hden.ne'
  have hden₂ : (den : ℚ) < 2 ^ (den.log2 + 1) := by exact_mod_cast Nat.lt_log2_self
  have hden' : (0 : ℚ) < den := by exact_mod_cast hden
  have htwo : (2 : ℚ) ≠ 0 := two_ne_zero
  constructor
  · have hpow : (2 : ℚ) ^ ((num.log2 : Int) - den.log2 - 1) * 2 ^ (den.log2 + 1) =
        2 ^ num.log2 := by
      rw [← zpow_natCast, ← zpow_natCast, ← zpow_add₀ htwo]
      congr 1
      push_cast
      ring
    rw [lt_div_iff₀ hden']
    have hpos : (0 : ℚ) < 2 ^ ((num.log2 : Int) - den.log2 - 1) := zpow_pos two_pos _
    nlinarith
  · have hpow : (2 : ℚ) ^ ((num.log2 : Int) - den.log2 + 1) * 2 ^ den.log2 =
        2 ^ (num.log2 + 1) := by
      rw [← zpow_natCast, ← zpow_natCast, ← zpow_add₀ htwo]
      congr 1
      push_cast
      ring
    rw [div_lt_iff₀ hden']
    have hpos : (0 : ℚ) < 2 ^ ((num.log2 : Int) - den.log2 + 1) := zpow_pos two_pos _
    nlinarith

/-- A quotient below `2 ^ (q + 53)`, and not below half of that unless `q` is the least
exponent, is expressed in multiples of `2 ^ q`. -/
theorem quotientExponent_eq {num den : Nat} (hnum : 0 < num) (hden : 0 < den) {q : Int}
    (hq : -1074 ≤ q) (hhigh : (num : ℚ) / den < 2 ^ (q + 53))
    (hlow : q = -1074 ∨ (2 : ℚ) ^ (q + 52) ≤ num / den) : quotientExponent num den = q := by
  obtain ⟨habove, hbelow⟩ := quotient_bounds hnum hden
  simp only [quotientExponent]
  generalize hp : max ((num.log2 : Int) - den.log2 - 53) (-1074) = p
  obtain ⟨hd, hscaled⟩ := scaleDown_spec num hden p
  have hd' : (0 : ℚ) < (scaleDown num den p).2 := by exact_mod_cast hd
  have htest : (scaleDown num den p).2 <<< 53 ≤ (scaleDown num den p).1 ↔
      (2 : ℚ) ^ (p + 53) ≤ num / den := by
    have hpow : (0 : ℚ) < 2 ^ p := zpow_pos two_pos _
    rw [zpow_add₀ two_ne_zero, ← le_div_iff₀' hpow, ← hscaled, le_div_iff₀ hd', Nat.shiftLeft_eq]
    norm_cast
    rw [mul_comm]
  have hlow' (h : q ≠ -1074) : (2 : ℚ) ^ (q + 52) ≤ num / den := hlow.resolve_left h
  split
  · next h =>
    have hqp := two_zpow_lt_iff.mp ((htest.mp h).trans_lt hhigh)
    have hlog := two_zpow_lt_iff.mp ((hlow' (by omega)).trans_lt hbelow)
    omega
  · next h =>
    have hlt := not_le.mp (mt htest.mpr h)
    have hle : q ≤ p := by
      by_contra hgt
      have := two_zpow_lt_iff.mp ((hlow' (by omega)).trans_lt hlt)
      omega
    by_contra hne
    have := two_zpow_lt_iff.mp (habove.trans hhigh)
    omega

/-! ## The interval of a number -/

/-- The distance from the magnitude `m · 2 ^ q` to the end of its interval below it, in quarters
of `2 ^ q`. -/
def gapBelow (x : Binary64) : Nat :=
  if x.significand = 1 <<< 52 ∧ 1 < x.biasedExponent then 1 else 2

theorem gapBelow_le_two (x : Binary64) : (x.gapBelow : ℚ) ≤ 2 := by
  unfold gapBelow
  split <;> norm_num

/-- Whether a magnitude is rounded to that of a finite number. Of the ends of the interval it
is one only for an even significand. -/
structure Covers (x : Binary64) (r : ℚ) : Prop where
  low : ((4 * x.significand - x.gapBelow : ℚ)) * 2 ^ (x.exponent - 2) ≤ r
  high : r ≤ (4 * x.significand + 2 : ℚ) * 2 ^ (x.exponent - 2)
  inside : x.significand % 2 = 1 →
    (4 * x.significand - x.gapBelow : ℚ) * 2 ^ (x.exponent - 2) < r ∧
      r < (4 * x.significand + 2 : ℚ) * 2 ^ (x.exponent - 2)

theorem fraction_lt (x : Binary64) : x.fraction < 2 ^ 52 := by
  rw [fraction, Nat.shiftLeft_eq, one_mul]
  exact Nat.mod_lt _ (by positivity)

theorem significand_lt (x : Binary64) : x.significand < 2 ^ 53 := by
  have := x.fraction_lt
  unfold significand
  rw [Nat.shiftLeft_eq]
  split <;> omega

theorem le_exponent (x : Binary64) : -1074 ≤ x.exponent := by
  unfold exponent
  omega

/-- Above the least exponent the significand has all its 53 bits. -/
theorem le_significand {x : Binary64} (h : x.exponent ≠ -1074) : 2 ^ 52 ≤ x.significand := by
  unfold exponent at h
  unfold significand
  rw [if_neg (by omega), Nat.shiftLeft_eq]
  omega

theorem one_lt_biasedExponent_iff {x : Binary64} : 1 < x.biasedExponent ↔ x.exponent ≠ -1074 := by
  unfold exponent
  omega

theorem exponent_le {x : Binary64} (h : x.isFinite = true) : x.exponent ≤ 971 := by
  have hne := of_decide_eq_true h
  have hlt : x.biasedExponent < 2048 := Nat.mod_lt _ (by decide)
  unfold exponent
  omega

/-- The bits of a finite number: its sign, and the place of its magnitude. -/
theorem ofMagnitude_self {x : Binary64} (hx : x.isFinite = true) :
    ofMagnitude x.isNegative ((x.exponent + 1074).toNat <<< 52 + x.significand) = x := by
  have hbits := x.bits.toNat_lt
  have hmagnitude : (x.exponent + 1074).toNat <<< 52 + x.significand = x.bits.toNat % 2 ^ 63 := by
    have hlt : x.biasedExponent < 2048 := Nat.mod_lt _ (by decide)
    have hbiased : x.biasedExponent = x.bits.toNat / 2 ^ 52 % 2048 := by
      rw [biasedExponent, Nat.shiftRight_eq_div_pow]
    have hfraction : x.fraction = x.bits.toNat % 2 ^ 52 := by
      rw [fraction, Nat.shiftLeft_eq, one_mul]
    rw [significand, exponent, Nat.shiftLeft_eq, Nat.shiftLeft_eq]
    split <;> omega
  have hnegative : x.isNegative = decide (2 ^ 63 ≤ x.bits.toNat) := by
    rw [isNegative, Nat.shiftLeft_eq, one_mul]
  obtain ⟨bits⟩ := x
  rw [hmagnitude, ofMagnitude, hnegative]
  simp only [Binary64.mk.injEq, ← UInt64.toNat_inj, UInt64.toNat_ofNat', decide_eq_true_eq,
    Nat.shiftLeft_eq] at hbits ⊢
  split <;> omega

/-! ## Numbers of an interval -/

namespace Covers

variable {x : Binary64} {r : ℚ}

theorem two_zpow_eq (q k : Int) : (2 : ℚ) ^ (q + k) = 2 ^ (k + 2) * 2 ^ (q - 2) := by
  rw [← zpow_add₀ two_ne_zero]
  congr 1
  ring

theorem lt_two_zpow (h : x.Covers r) : r < 2 ^ (x.exponent + 53) := by
  have hunit : (0 : ℚ) < 2 ^ (x.exponent - 2) := zpow_pos two_pos _
  have hm : (x.significand : ℚ) + 1 ≤ 2 ^ 53 := by exact_mod_cast x.significand_lt
  have hhigh := h.high
  rw [two_zpow_eq]
  norm_num at hm ⊢
  nlinarith

/-- Rounding in multiples of the number's own power of two. -/
theorem roundQuotient_scaled (h : x.Covers r) {n d : Nat} (hd : 0 < d)
    (hr : (n : ℚ) / d = r / 2 ^ x.exponent) : roundQuotient n d = x.significand := by
  have hunit : (0 : ℚ) < 2 ^ (x.exponent - 2) := zpow_pos two_pos _
  have hpow : (2 : ℚ) ^ x.exponent = 4 * 2 ^ (x.exponent - 2) := by
    have h := two_zpow_eq x.exponent 0
    norm_num at h
    exact h
  have hgap := x.gapBelow_le_two
  have hlow := h.low
  have hhigh := h.high
  have hpos : (0 : ℚ) < 4 * 2 ^ (x.exponent - 2) := by positivity
  refine roundQuotient_eq hd ?_ ?_ fun hodd => ?_
  · rw [hr, hpow, le_div_iff₀ hpos]
    nlinarith
  · rw [hr, hpow, div_le_iff₀ hpos]
    nlinarith
  · obtain ⟨hl, hh⟩ := h.inside hodd
    rw [hr, hpow, lt_div_iff₀ hpos, div_lt_iff₀ hpos]
    constructor <;> nlinarith

/-- Rounding below the power of two that a number is. -/
theorem roundQuotient_below (h : x.Covers r) (hm : x.significand = 2 ^ 52) (hgap : x.gapBelow = 1)
    (hr : r < 2 ^ (x.exponent + 52)) {n d : Nat} (hd : 0 < d)
    (hscaled : (n : ℚ) / d = r / 2 ^ (x.exponent - 1)) : roundQuotient n d = 2 ^ 53 := by
  have hunit : (0 : ℚ) < 2 ^ (x.exponent - 2) := zpow_pos two_pos _
  have hpow : (2 : ℚ) ^ (x.exponent - 1) = 2 * 2 ^ (x.exponent - 2) := by
    have h := two_zpow_eq x.exponent (-1)
    norm_num at h
    exact h
  have hlow := h.low
  rw [hm, hgap] at hlow
  rw [two_zpow_eq] at hr
  have hpos : (0 : ℚ) < 2 * 2 ^ (x.exponent - 2) := by positivity
  refine roundQuotient_eq hd ?_ ?_ fun hodd => absurd hodd (by decide)
  · rw [hscaled, hpow, le_div_iff₀ hpos]
    norm_num at hlow ⊢
    nlinarith
  · rw [hscaled, hpow, div_le_iff₀ hpos]
    norm_num at hr ⊢
    nlinarith

/-- Below the powers of two of its own exponent lies only the interval of such a power itself. -/
theorem significand_of_lt (h : x.Covers r) (hne : x.exponent ≠ -1074)
    (hlt : r < 2 ^ (x.exponent + 52)) : x.significand = 2 ^ 52 := by
  have hunit : (0 : ℚ) < 2 ^ (x.exponent - 2) := zpow_pos two_pos _
  have hgap := x.gapBelow_le_two
  refine le_antisymm ?_ (le_significand hne)
  by_contra hgt
  have hgt' : (2 ^ 52 : ℚ) + 1 ≤ x.significand := by exact_mod_cast not_le.mp hgt
  have hlow := h.low.trans_lt hlt
  rw [two_zpow_eq] at hlow
  have hcancel := lt_of_mul_lt_mul_right hlow hunit.le
  norm_num at hcancel
  linarith

/-- Multiples of half of `2 ^ q` are taken just below a power of two. -/
theorem quotientExponent_below {num den : Nat} (h : x.Covers (num / den)) (hnum : 0 < num)
    (hden : 0 < den) (hne : x.exponent ≠ -1074) (hm : x.significand = 2 ^ 52)
    (hgap : x.gapBelow = 1) (hlt : (num : ℚ) / den < 2 ^ (x.exponent + 52)) :
    quotientExponent num den = x.exponent - 1 := by
  have hunit : (0 : ℚ) < 2 ^ (x.exponent - 2) := zpow_pos two_pos _
  have hmin := x.le_exponent
  refine quotientExponent_eq hnum hden (by omega) ?_ (.inr ?_)
  · rwa [show x.exponent - 1 + 53 = x.exponent + 52 by ring]
  · have hlow := h.low
    rw [hm, hgap] at hlow
    rw [show x.exponent - 1 + 52 = x.exponent + 51 by ring, two_zpow_eq]
    norm_num at hlow ⊢
    nlinarith

end Covers

/-- A quotient in the interval of a finite number has the magnitude of that number. -/
theorem nearestBits_of_covers {x : Binary64} (hx : x.isFinite = true) {num den : Nat}
    (hnum : 0 < num) (hden : 0 < den) (h : x.Covers (num / den)) :
    nearestBits num den = (x.exponent + 1074).toNat <<< 52 + x.significand := by
  have hmin := x.le_exponent
  have hmax := exponent_le hx
  have hm := x.significand_lt
  have hinfinity : (x.exponent + 1074).toNat <<< 52 + x.significand ≤ infinityBits := by
    rw [infinityBits, Nat.shiftLeft_eq, Nat.shiftLeft_eq]
    omega
  simp only [nearestBits, if_neg hnum.ne']
  by_cases hlow : x.exponent = -1074 ∨ (2 : ℚ) ^ (x.exponent + 52) ≤ num / den
  · rw [quotientExponent_eq hnum hden hmin h.lt_two_zpow hlow]
    obtain ⟨hd, hscaled⟩ := scaleDown_spec num hden x.exponent
    rw [h.roundQuotient_scaled hd hscaled, min_eq_left hinfinity]
  · obtain ⟨hne, hlt⟩ := not_or.mp hlow
    rw [not_le] at hlt
    have heq := h.significand_of_lt hne hlt
    have hgap : x.gapBelow = 1 := by
      rw [gapBelow, if_pos]
      exact ⟨by rw [heq, Nat.shiftLeft_eq, one_mul], one_lt_biasedExponent_iff.mpr hne⟩
    rw [h.quotientExponent_below hnum hden hne heq hgap hlt]
    obtain ⟨hd, hscaled⟩ := scaleDown_spec num hden (x.exponent - 1)
    rw [h.roundQuotient_below heq hgap hlt hd hscaled]
    -- The significand `2 ^ 53` at one exponent is `2 ^ 52` at the next.
    have hstep : (x.exponent - 1 + 1074).toNat <<< 52 + 2 ^ 53 =
        (x.exponent + 1074).toNat <<< 52 + x.significand := by
      rw [heq, Nat.shiftLeft_eq, Nat.shiftLeft_eq]
      omega
    rw [hstep, min_eq_left hinfinity]

/-- **Rounding**: a quotient in the interval of a finite number is rounded to that number. -/
theorem nearest_of_covers {x : Binary64} (hx : x.isFinite = true) {num den : Nat} (hnum : 0 < num)
    (hden : 0 < den) (h : x.Covers (num / den)) : nearest x.isNegative num den = x := by
  rw [nearest, nearestBits_of_covers hx hnum hden h, ofMagnitude_self hx]

end QueryDoc.Binary64
