import QueryDoc.Proofs.Source.Float

/-!
# QueryDoc.Proofs.Decimal

Decimal numbers read back from their texts. Both forms of a number, and what a point in it
makes of them, are numerals: digits, digits behind a point, and a power of ten. Reading a
numeral gives the number that it stands for (`Numeral.read?_text`), which is not always the
one that was written: `1200.0` reads as `12000 · 10^-1`. Its absolute value is the same.
-/

namespace QueryDoc

/-- The absolute value of a number. -/
def Decimal.absolute (x : Decimal) : ℚ := x.coefficient * 10 ^ x.exponent

/-! ## Numerals -/

/-- A number in the parts that it is written in. Without digits behind it there is no point. -/
structure Numeral where
  negative : Bool
  whole : List Char
  fraction : List Char
  power : Option Int

namespace Numeral

/-- A point with digits behind it, if there are any. -/
def fractionText (ds : List Char) : List Char := if ds = [] then [] else '.' :: ds

/-- The letter `e` with a power of ten behind it, if there is one. -/
def powerText : Option Int → List Char
  | none => []
  | some e => 'e' :: Decimal.intText e

/-- A numeral as it is written: sign, whole part, fraction, power of ten. -/
def text (n : Numeral) : List Char :=
  (if n.negative then ['-'] else []) ++ (n.whole ++ (fractionText n.fraction ++ powerText n.power))

/-- The number that a numeral stands for. -/
def decimal (n : Numeral) : Decimal :=
  ⟨n.negative, Decimal.ofDigits (n.whole ++ n.fraction), n.power.getD 0 - n.fraction.length⟩

/-- A numeral of digits, with a zero in front only if it is the only digit there. -/
structure WellFormed (n : Numeral) : Prop where
  whole : IsDigits n.whole
  fraction : ∀ c ∈ n.fraction, c.isDigit = true
  leading : n.whole = ['0'] ∨ n.whole.head? ≠ some '0'

/-- The numeral with a zero behind the point, if there was none. -/
def withPoint (n : Numeral) : Numeral :=
  if n.fraction = [] then { n with fraction := ['0'] } else n

@[simp] theorem negative_withPoint (n : Numeral) : n.withPoint.negative = n.negative := by
  unfold withPoint
  split <;> rfl

/-- Where nothing follows the digits, the point and its zero come last. -/
theorem text_withPoint {n : Numeral} (hf : n.fraction = []) (hp : n.power = none) :
    n.withPoint.text = n.text ++ ['.', '0'] := by
  simp [withPoint, text, fractionText, powerText, hf, hp]

/-- A numeral stays one with a point. -/
theorem WellFormed.withPoint {n : Numeral} (h : n.WellFormed) : n.withPoint.WellFormed := by
  unfold Numeral.withPoint
  split
  · exact { h with fraction := List.forall_mem_singleton.mpr rfl }
  · exact h

/-! ## Reading -/

theorem head?_powerText (power : Option Int) :
    ∀ c ∈ (powerText power).head?, c = 'e' := by
  cases power <;> simp [powerText]

/-- What follows the whole part begins with a point or the letter of a power. -/
theorem head?_fractionText_append (ds : List Char) (power : Option Int) :
    ∀ c ∈ (fractionText ds ++ powerText power).head?, c = '.' ∨ c = 'e' := by
  unfold fractionText
  split
  · exact fun c hc => .inr (head?_powerText power c (by simpa using hc))
  · simp

theorem isDigit_of_mark {cs : List Char} (h : ∀ c ∈ cs.head?, c = '.' ∨ c = 'e') :
    ∀ c ∈ cs.head?, c.isDigit = false := by
  intro c hc
  obtain rfl | rfl := h c hc <;> decide

theorem readExponent?_intText (e : Int) :
    Decimal.readExponent? ('e' :: Decimal.intText e) = some e := by
  have hdigits (n : Nat) :
      Decimal.readExponent?.unsigned? (Decimal.digits n) = some (n : Int) := by
    obtain ⟨hne, hall⟩ := isDigits_digits n
    rw [Decimal.readExponent?.unsigned?, if_pos ⟨hne, List.all_eq_true.mpr hall⟩,
      Decimal.ofDigits_digits]
  unfold Decimal.readExponent? Decimal.intText
  by_cases he : e < 0
  · simp only [if_pos he, true_or, if_true, hdigits, Option.map_some, Option.some.injEq]
    omega
  · obtain ⟨c, ds, hds, -, hplus, hminus⟩ := exists_head_digits e.natAbs
    have hread := hdigits e.natAbs
    rw [hds] at hread
    simp only [if_neg he, true_or, if_true, hds]
    split
    · next heq => exact absurd (List.cons.inj heq).1 hplus
    · next heq => exact absurd (List.cons.inj heq).1 hminus
    · rw [hread, Option.some.injEq]
      omega

/-- A power of ten is read as it was written, and a missing one as zero. -/
theorem readExponent?_powerText (power : Option Int) :
    Decimal.readExponent? (powerText power) = some (power.getD 0) := by
  cases power with
  | none => rfl
  | some e => exact readExponent?_intText e

/-- A numeral without its sign is read as its decimal. -/
theorem readUnsigned?_text {n : Numeral} (h : n.WellFormed) :
    Decimal.readUnsigned? n.negative
      (n.whole ++ (fractionText n.fraction ++ powerText n.power)) = some n.decimal := by
  have hwhole := Source.spanDigits_eq h.whole.2
    (isDigit_of_mark (head?_fractionText_append n.fraction n.power))
  simp only [Decimal.readUnsigned?, hwhole, if_neg h.whole.1]
  by_cases hf : n.fraction = []
  · have hpower := readExponent?_powerText n.power
    simp only [fractionText, if_pos hf, List.nil_append]
    split
    · next cs heq =>
      have hhead := head?_powerText n.power '.' (by simp [heq])
      exact absurd hhead (by decide)
    · simp [hpower, decimal, hf]
  · have hfraction : spanDigits (n.fraction ++ powerText n.power) =
        (n.fraction, powerText n.power) :=
      Source.spanDigits_eq h.fraction
        (isDigit_of_mark fun c hc => .inr (head?_powerText n.power c hc))
    simp only [fractionText, if_neg hf, List.cons_append, hfraction, readExponent?_powerText,
      Option.map_some]
    rfl

/-- **Reading** a numeral gives the number that it stands for. -/
theorem read?_text {n : Numeral} (h : n.WellFormed) :
    Decimal.read? n.text = some n.decimal := by
  have hread := readUnsigned?_text h
  obtain ⟨c, ds, hds⟩ := List.exists_cons_of_ne_nil h.whole.1
  have hc := h.whole.2 c (hds ▸ List.mem_cons_self)
  unfold text
  cases hn : n.negative with
  | true => rwa [hn] at hread
  | false =>
    rw [hn, hds] at hread
    rw [hds]
    unfold Decimal.read?
    split
    · next heq =>
      obtain rfl := (List.cons.inj heq).1
      exact absurd hc (by decide)
    · exact hread

/-! ## Points -/

theorem not_mem_of_isDigit {ds : List Char} (h : ∀ c ∈ ds, c.isDigit = true) {c : Char}
    (hc : c.isDigit = false) : c ∉ ds := fun hmem => by simp [h c hmem] at hc

theorem dot_not_mem_powerText (power : Option Int) : '.' ∉ powerText power := by
  cases power with
  | none => exact List.not_mem_nil
  | some e =>
    have hdigits := not_mem_of_isDigit (isDigits_digits e.natAbs).2 (c := '.') (by decide)
    simp only [powerText, Decimal.intText]
    split <;> simpa using hdigits

/-- With a point a numeral is the numeral with a zero behind the point. -/
theorem pointed_text {n : Numeral} (h : n.WellFormed) :
    Binary64.pointed n.text = n.withPoint.text := by
  unfold Binary64.pointed withPoint
  by_cases hf : n.fraction = []
  · -- Neither the sign nor a digit is a point or the letter `e`.
    have hfront (c : Char) (hc : c ∈ (if n.negative then ['-'] else []) ++ n.whole) :
        c = '-' ∨ c.isDigit = true := by
      refine (List.mem_append.mp hc).imp (fun hsign => ?_) (h.whole.2 c)
      split at hsign
      · exact List.mem_singleton.mp hsign
      · contradiction
    have hdot : '.' ∉ n.text := by
      simp only [text, fractionText, hf, if_pos, List.nil_append, ← List.append_assoc,
        List.mem_append (t := powerText n.power), not_or]
      exact ⟨fun hmem => absurd (hfront '.' hmem) (by decide), dot_not_mem_powerText _⟩
    have hmark : ∀ c ∈ (if n.negative then ['-'] else []) ++ n.whole, decide (c ≠ 'e') = true := by
      intro c hc
      rw [decide_eq_true_eq]
      rintro rfl
      exact absurd (hfront 'e' hc) (by decide)
    have hpower : ∀ c ∈ (powerText n.power).head?, decide (c ≠ 'e') = false := by
      intro c hc
      simp [head?_powerText n.power c hc]
    rw [if_neg hdot, if_pos hf]
    simp only [text, fractionText, hf, if_pos, List.nil_append, ← List.append_assoc,
      Source.takeWhile_append_of_head hmark hpower, Source.dropWhile_append_of_head hmark hpower]
    simp
  · rw [if_pos (by simp [text, fractionText, hf]), if_neg hf]

/-- Digits behind others count less by a power of ten. -/
theorem ofDigits_append (ds es : List Char) :
    Decimal.ofDigits (ds ++ es) = 10 ^ es.length * Decimal.ofDigits ds + Decimal.ofDigits es := by
  simp only [Decimal.ofDigits, Nat.ofDigitChars_append]
  exact Nat.ofDigitChars_eq_ofDigitChars_zero

/-- A zero behind the point changes nothing. -/
theorem absolute_withPoint (n : Numeral) : n.withPoint.decimal.absolute = n.decimal.absolute := by
  unfold withPoint
  split
  · next hf =>
    have hzero : Decimal.ofDigits ['0'] = 0 := rfl
    have hten : (10 : ℚ) ≠ 0 := by norm_num
    simp only [Decimal.absolute, decimal, hf, ofDigits_append, hzero, List.append_nil,
      List.length_singleton, List.length_nil, Nat.cast_one, Nat.cast_zero, sub_zero,
      zpow_sub_one₀ hten]
    push_cast
    ring
  · rfl

end Numeral

/-! ## Both forms of a number -/

namespace Decimal

open Numeral (ofDigits_append)

theorem ofDigits_replicate_zero (n : Nat) : ofDigits (List.replicate n '0') = 0 := by
  rw [ofDigits, Nat.ofDigitChars_replicate_zero, Nat.mul_zero]

/-- The numeral that a number is written as positionally. -/
def positionalNumeral (x : Decimal) : Numeral :=
  let ds := digits x.coefficient
  let places := (-x.exponent).toNat
  if 0 ≤ x.exponent then ⟨x.negative, ds ++ List.replicate x.exponent.toNat '0', [], none⟩
  else if ds.length ≤ places then
    ⟨x.negative, ['0'], List.replicate (places - ds.length) '0' ++ ds, none⟩
  else ⟨x.negative, ds.take (ds.length - places), ds.drop (ds.length - places), none⟩

/-- The numeral that a number is written as with a power of ten. -/
def scientificNumeral (x : Decimal) : Numeral :=
  ⟨x.negative, (digits x.coefficient).take 1, (digits x.coefficient).drop 1,
    some (x.magnitude - 1)⟩

/-- In positional notation, a decimal is written as this numeral. -/
theorem text_positionalNumeral (x : Decimal) : x.positionalNumeral.text = x.positional := by
  have hne := Source.digits_ne_nil x.coefficient
  simp only [positionalNumeral, positional]
  split
  · simp [Numeral.text, Numeral.fractionText, Numeral.powerText, sign]
  · split
    · simp [Numeral.text, Numeral.fractionText, Numeral.powerText, sign, hne]
    · have hdrop : (digits x.coefficient).drop
          ((digits x.coefficient).length - (-x.exponent).toNat) ≠ [] := by
        rw [ne_eq, List.drop_eq_nil_iff]
        omega
      simp [Numeral.text, Numeral.fractionText, Numeral.powerText, sign, hdrop]

@[simp] theorem negative_positionalNumeral (x : Decimal) :
    x.positionalNumeral.negative = x.negative := by
  simp only [positionalNumeral]
  split
  · rfl
  · split <;> rfl

theorem power_positionalNumeral (x : Decimal) : x.positionalNumeral.power = none := by
  simp only [positionalNumeral]
  split
  · rfl
  · split <;> rfl

/-- A fraction is written exactly for negative exponents. -/
theorem fraction_positionalNumeral {x : Decimal} :
    x.positionalNumeral.fraction = [] ↔ 0 ≤ x.exponent := by
  have hne := Source.digits_ne_nil x.coefficient
  simp only [positionalNumeral]
  split
  · next hx => simp [hx]
  · next hx =>
    split
    · simp [hx, hne]
    · simp only [hx, iff_false, List.drop_eq_nil_iff]
      omega

/-- In scientific notation, a decimal is written as this numeral. -/
theorem text_scientificNumeral (x : Decimal) : x.scientificNumeral.text = x.scientific := by
  simp only [scientificNumeral, scientific]
  split
  · next hlen =>
    have hdrop := List.drop_eq_nil_iff.mpr hlen
    simp [Numeral.text, Numeral.fractionText, Numeral.powerText, sign, hdrop]
  · next hlen =>
    have hdrop := mt List.drop_eq_nil_iff.mp hlen
    simp only [Numeral.text, Numeral.fractionText, Numeral.powerText, sign, if_neg hdrop,
      List.append_assoc]

theorem length_digits_pos (n : Nat) : 0 < (digits n).length :=
  List.length_pos_iff.mpr (Source.digits_ne_nil n)

/-- A number other than zero lies between the powers of ten that its magnitude gives. -/
theorem absolute_bounds {x : Decimal} (hx : 0 < x.coefficient) :
    (10 : ℚ) ^ (x.magnitude - 1) ≤ x.absolute ∧ x.absolute < 10 ^ x.magnitude := by
  have hlen := length_digits_pos x.coefficient
  have hten : (10 : ℚ) ≠ 0 := by norm_num
  have hpos : (0 : ℚ) < 10 ^ x.exponent := zpow_pos (by norm_num) _
  have hbelow : x.coefficient < 10 ^ (digits x.coefficient).length :=
    (Nat.length_toDigits_le_iff (by decide) hlen).mp le_rfl
  have habove : 10 ^ ((digits x.coefficient).length - 1) ≤ x.coefficient := by
    rcases Nat.eq_zero_or_pos ((digits x.coefficient).length - 1) with hzero | hone
    · rwa [hzero, pow_zero]
    · refine not_lt.mp (mt (Nat.length_toDigits_le_iff (by decide) hone).mpr ?_)
      rw [← digits]
      omega
  constructor
  · have hsplit : x.magnitude - 1 = ((digits x.coefficient).length - 1 : Nat) + x.exponent := by
      unfold magnitude
      omega
    rw [hsplit, zpow_add₀ hten, zpow_natCast, absolute]
    exact mul_le_mul_of_nonneg_right (by exact_mod_cast habove) hpos.le
  · rw [magnitude, zpow_add₀ hten, zpow_natCast, absolute]
    exact mul_lt_mul_of_pos_right (by exact_mod_cast hbelow) hpos

theorem head?_take {ds : List Char} {n : Nat} (hn : 0 < n) : (ds.take n).head? = ds.head? := by
  rw [List.head?_take, if_neg hn.ne']

/-- The whole part of a number has no zero in front, unless it is zero. -/
theorem wellFormed_positionalNumeral {x : Decimal} (h : x.coefficient = 0 → x.exponent ≤ 0) :
    x.positionalNumeral.WellFormed := by
  have hds := isDigits_digits x.coefficient
  have hlen := length_digits_pos x.coefficient
  have hzeros (n : Nat) (c : Char) (hc : c ∈ List.replicate n '0') := isDigit_of_mem_zeros hc
  simp only [positionalNumeral]
  split
  · next hexponent =>
    refine ⟨hds.append (hzeros _), List.forall_mem_nil _, ?_⟩
    rcases Nat.eq_zero_or_pos x.coefficient with hzero | hpos
    · have hwhole : x.exponent = 0 := le_antisymm (h hzero) hexponent
      left
      simp [hzero, hwhole, digits]
    · right
      rw [List.head?_append_of_ne_nil _ hds.1]
      exact head_digits_ne_zero hpos
  · split
    · exact ⟨⟨List.cons_ne_nil _ _, List.forall_mem_singleton.mpr rfl⟩,
        List.forall_mem_append.mpr ⟨hzeros _, hds.2⟩, .inl rfl⟩
    · next hexponent hplaces =>
      have hpos : 0 < (digits x.coefficient).length - (-x.exponent).toNat := by omega
      refine ⟨hds.take hpos, fun c hc => hds.2 c (List.mem_of_mem_drop hc), .inr ?_⟩
      rw [head?_take hpos]
      refine head_digits_ne_zero (Nat.pos_of_ne_zero fun hzero => ?_)
      rw [hzero] at hplaces
      have hone : (digits 0).length = 1 := rfl
      omega

/-- In scientific notation the whole part is one digit, which is not zero. -/
theorem wellFormed_scientificNumeral {x : Decimal} (h : 0 < x.coefficient) :
    x.scientificNumeral.WellFormed where
  whole := (isDigits_digits _).take Nat.one_pos
  fraction c hc := (isDigits_digits _).2 c (List.mem_of_mem_drop hc)
  leading := by
    right
    rw [scientificNumeral, head?_take Nat.one_pos]
    exact head_digits_ne_zero h

/-- Written positionally a number keeps its absolute value. -/
theorem absolute_positionalNumeral (x : Decimal) :
    x.positionalNumeral.decimal.absolute = x.absolute := by
  simp only [positionalNumeral]
  split
  · next hexponent =>
    obtain ⟨k, hk⟩ := Int.eq_ofNat_of_zero_le hexponent
    simp only [absolute, Numeral.decimal, List.append_nil, ofDigits_append, ofDigits_digits,
      ofDigits_replicate_zero, List.length_replicate, List.length_nil, Option.getD_none, hk]
    simp [mul_comm]
  · split
    · next hexponent hplaces =>
      have hone : ofDigits ['0'] = 0 := rfl
      have hexp : (0 : Int) - ((-x.exponent).toNat - (digits x.coefficient).length +
          (digits x.coefficient).length : Nat) = x.exponent := by omega
      simp only [absolute, Numeral.decimal, ofDigits_append, ofDigits_digits, hone,
        ofDigits_replicate_zero, List.length_append, List.length_replicate, Option.getD_none, hexp,
        Nat.mul_zero, Nat.zero_add]
    · next hexponent hplaces =>
      have hexp : (0 : Int) - ((digits x.coefficient).length -
          ((digits x.coefficient).length - (-x.exponent).toNat) : Nat) = x.exponent := by omega
      simp only [absolute, Numeral.decimal, List.take_append_drop, ofDigits_digits,
        List.length_drop, Option.getD_none, hexp]

/-- With a power of ten a number is written as it is. -/
theorem decimal_scientificNumeral (x : Decimal) : x.scientificNumeral.decimal = x := by
  have hlen := length_digits_pos x.coefficient
  have hexp : x.magnitude - 1 - ((digits x.coefficient).length - 1 : Nat) = x.exponent := by
    unfold magnitude
    omega
  simp only [scientificNumeral, Numeral.decimal, List.take_append_drop, ofDigits_digits,
    List.length_drop, Option.getD_some, hexp]

end Decimal

end QueryDoc
