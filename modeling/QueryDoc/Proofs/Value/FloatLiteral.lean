import Mathlib
import QueryDoc.Proofs.Binary64.Notation
import QueryDoc.Proofs.Value.Tokens

/-!
# QueryDoc.Proofs.Value.FloatLiteral

The literals of floats. The text of a finite number with a point in it has the form of a float
of the grammar, a regular expression (`Numeral.floatPattern`), stands for the decimal number that
the text without the point stands for, and is one token (`Value.text_float`).

The form is read off the numeral that is written: its whole part, its fraction and its power of
ten are the parts of the expression. A power of ten is never zero, as numbers that would need no
power of ten are written positionally.
-/

namespace QueryDoc

open Source (placedTokens lexemes)

/-! ## The form of floats -/

namespace Numeral

open RegularExpression (char)

/-- One of these characters. -/
def oneOf (cs : List Char) : RegularExpression Char := (cs.map char).sum

/-- A digit. -/
def digit : RegularExpression Char := oneOf ['0', '1', '2', '3', '4', '5', '6', '7', '8', '9']

/-- A digit that a number may begin with. -/
def leadingDigit : RegularExpression Char := oneOf ['1', '2', '3', '4', '5', '6', '7', '8', '9']

/-- Digits without a zero in front. -/
def positiveInt : RegularExpression Char := leadingDigit * digit.star

/-- The expression `-?(0|[1-9][0-9]*)\.[0-9]+(e-?[1-9][0-9]*)?`. -/
def floatPattern : RegularExpression Char :=
  (1 + char '-') * (char '0' + positiveInt) * char '.' * (digit * digit.star) *
    (1 + char 'e' * (1 + char '-') * positiveInt)

theorem mem_oneOf {cs w : List Char} : w ∈ (oneOf cs).matches' ↔ ∃ c ∈ cs, w = [c] := by
  unfold oneOf
  induction cs with
  | nil => simp [RegularExpression.matches'_zero, Language.notMem_zero]
  | cons c cs ih =>
    rw [List.map_cons, List.sum_cons, RegularExpression.matches'_add, Language.mem_add, ih,
      List.exists_mem_cons_iff]
    rfl

theorem mem_digits_of_isDigit {c : Char} (h : c.isDigit = true) :
    c ∈ ['0', '1', '2', '3', '4', '5', '6', '7', '8', '9'] := by
  have hbounds : 48 ≤ c.toNat ∧ c.toNat ≤ 57 := by
    simp only [Char.isDigit, Bool.and_eq_true, decide_eq_true_eq] at h
    exact h
  have hall : ∀ n < 58, 48 ≤ n →
      Char.ofNat n ∈ ['0', '1', '2', '3', '4', '5', '6', '7', '8', '9'] := by decide
  have hmem := hall c.toNat (by omega) hbounds.1
  rwa [Char.ofNat_toNat] at hmem

theorem mem_digit {c : Char} (h : c.isDigit = true) : [c] ∈ digit.matches' :=
  mem_oneOf.mpr ⟨c, mem_digits_of_isDigit h, rfl⟩

/-- Any digits in a row are matched. -/
theorem mem_digit_star {ds : List Char} (h : ∀ c ∈ ds, c.isDigit = true) :
    ds ∈ digit.star.matches' := by
  have hjoin : (ds.map fun c => [c]).flatten = ds := by
    rw [← List.flatMap_def, List.flatMap_singleton']
  rw [← hjoin]
  exact Language.join_mem_kstar (List.forall_mem_map.mpr fun c hc => mem_digit (h c hc))

/-- Digits are one digit and others. -/
theorem mem_digit_plus {ds : List Char} (h : IsDigits ds) :
    ds ∈ (digit * digit.star).matches' := by
  obtain ⟨c, cs, rfl⟩ := List.exists_cons_of_ne_nil h.1
  obtain ⟨hc, hcs⟩ := List.forall_mem_cons.mp h.2
  exact Language.append_mem_mul (mem_digit hc) (mem_digit_star hcs)

/-- Digits without a leading zero are matched. -/
theorem mem_positiveInt {ds : List Char} (h : IsDigits ds) (hzero : ds.head? ≠ some '0') :
    ds ∈ positiveInt.matches' := by
  obtain ⟨c, cs, rfl⟩ := List.exists_cons_of_ne_nil h.1
  obtain ⟨hc, hcs⟩ := List.forall_mem_cons.mp h.2
  have hne : c ≠ '0' := fun heq => hzero (congrArg some heq)
  have hleading := (List.mem_cons.mp (mem_digits_of_isDigit hc)).resolve_left hne
  exact Language.append_mem_mul (mem_oneOf.mpr ⟨c, hleading, rfl⟩) (mem_digit_star hcs)

/-- A minus sign is optional. -/
theorem mem_minus (negative : Bool) :
    (if negative then ['-'] else []) ∈ (1 + char '-' : RegularExpression Char).matches' := by
  cases negative
  · exact .inl rfl
  · exact .inr rfl

/-- A power of ten other than zero. -/
theorem mem_power {e : Int} (he : e ≠ 0) :
    Decimal.intText e ∈ ((1 + char '-') * positiveInt : RegularExpression Char).matches' := by
  have hdigits := mem_positiveInt (isDigits_digits e.natAbs) (head_digits_ne_zero (by omega))
  have hsign : Decimal.intText e =
      (if decide (e < 0) then ['-'] else []) ++ Decimal.digits e.natAbs := by
    unfold Decimal.intText
    split <;> simp [*]
  rw [hsign]
  exact Language.append_mem_mul (mem_minus _) hdigits

/-- An exponent is matched whole: it has no leading zero, and no plus sign. -/
theorem mem_powerText {power : Option Int} (h : power ≠ some 0) :
    powerText power ∈ (1 + char 'e' * (1 + char '-') * positiveInt :
      RegularExpression Char).matches' := by
  cases power with
  | none => exact .inl rfl
  | some e =>
    refine .inr ?_
    rw [RegularExpression.matches'_mul, RegularExpression.matches'_mul, mul_assoc,
      ← RegularExpression.matches'_mul]
    exact Language.append_mem_mul (a := ['e']) rfl (mem_power fun he => h (congrArg some he))

/-- A numeral with digits behind the point has the form of a float. -/
theorem WellFormed.text_mem {n : Numeral} (h : n.WellFormed) (hfraction : n.fraction ≠ [])
    (hpower : n.power ≠ some 0) : n.text ∈ floatPattern.matches' := by
  have hwhole : n.whole ∈ (char '0' + positiveInt : RegularExpression Char).matches' :=
    h.leading.imp id fun hzero => mem_positiveInt h.whole hzero
  have htext : n.text = (if n.negative then ['-'] else []) ++ n.whole ++ ['.'] ++ n.fraction ++
      powerText n.power := by
    simp [text, fractionText, hfraction]
  rw [htext]
  exact Language.append_mem_mul (Language.append_mem_mul (Language.append_mem_mul
    (Language.append_mem_mul (mem_minus n.negative) hwhole) (b := ['.']) rfl)
    (mem_digit_plus ⟨hfraction, h.fraction⟩)) (mem_powerText hpower)

@[simp] theorem power_withPoint (n : Numeral) : n.withPoint.power = n.power := by
  unfold withPoint
  split <;> rfl

/-- With a point, a numeral has a fraction. -/
theorem fraction_withPoint_ne_nil (n : Numeral) : n.withPoint.fraction ≠ [] := by
  unfold withPoint
  split
  · exact List.cons_ne_nil _ _
  · next h => exact h

/-- The letter `e` stands in front of powers of ten only. -/
theorem WellFormed.e_mem_text {n : Numeral} (h : n.WellFormed) :
    'e' ∈ n.text ↔ n.power ≠ none := by
  have hwhole := not_mem_of_isDigit h.whole.2 (c := 'e') (by decide)
  have hfraction := not_mem_of_isDigit h.fraction (c := 'e') (by decide)
  have hsign : 'e' ∉ if n.negative then ['-'] else [] := by split <;> decide
  have hpoint : 'e' ∉ fractionText n.fraction := by
    unfold fractionText
    split
    · exact List.not_mem_nil
    · simpa using hfraction
  have hpower : 'e' ∈ powerText n.power ↔ n.power ≠ none := by
    cases n.power <;> simp [powerText]
  simp only [text, List.mem_append, hwhole, hsign, hpoint, false_or, hpower]

end Numeral

/-! ## Shortest texts -/

namespace Binary64

/-- A power of ten is written, except for zero and in positional notation. -/
theorem power_shortNumeral (x : Binary64) : x.shortNumeral.power =
    if x.shortest.coefficient = 0 ∨ IsPositional x.shortest.magnitude then none
    else some (x.shortest.magnitude - 1) := by
  simp only [shortNumeral]
  split
  · rw [Numeral.power_withPoint, Decimal.power_positionalNumeral]
  · rfl

/-- No power of ten is written as `e0`. -/
theorem power_shortNumeral_ne_zero (x : Binary64) : x.shortNumeral.power ≠ some 0 := by
  rw [power_shortNumeral]
  split
  · exact nofun
  · next h =>
    rw [ne_eq, Option.some.injEq]
    intro hzero
    exact h (.inr ⟨by omega, by omega⟩)

/-- Zero and numbers of a moderate size have no power of ten. -/
theorem power_shortNumeral_eq_none {x : Binary64} : x.shortNumeral.power = none ↔
    x.isZero = true ∨ 10 ^ (-4 : Int) ≤ x.absolute ∧ x.absolute < 10 ^ 16 := by
  have hzero : x.shortest.coefficient = 0 ↔ x.isZero = true :=
    ⟨coefficient_shortest_eq_zero, fun h => by rw [shortest, if_pos h]⟩
  have hnone : x.shortNumeral.power = none ↔
      x.shortest.coefficient = 0 ∨ IsPositional x.shortest.magnitude := by
    rw [power_shortNumeral]
    split
    · next h => exact iff_of_true rfl h
    · next h => exact iff_of_false (Option.some_ne_none _) h
  rw [hnone, hzero]
  cases hx : x.isZero with
  | true => simp
  | false => simp only [Bool.false_eq_true, false_or, isPositional_shortest_iff hx]

end Binary64

/-! ## Literals -/

/-- A float is one lexeme. -/
theorem Value.lexemes_text_float {x : Binary64} (hx : x.isFinite = true) :
    lexemes (Value.float x).text.toList =
      [.token ⟨.float, (Value.float x).text.toList⟩] := by
  have htokens : (Value.float x).tokens = [⟨.float, (Value.float x).text.toList⟩] := by
    rw [Value.tokens, if_pos hx, Value.text, Value.floatText, if_pos hx, String.toList_ofList]
  have hlexemes := Value.lexemes_text_append (v := .float x) trivial Grammar.Stops.nil
  rw [htokens, List.append_nil] at hlexemes
  simpa [Grammar.laidOut, lexemes] using hlexemes

/-- **Floats**: the literal of a finite number has the form of a float of the grammar. Its point
changes nothing: the literal stands for the decimal number that the shortest text of the number
stands for, with the same sign, and both read back to the number. It has a power of ten exactly if
the number is not zero and lies outside the moderate sizes, and it is cut into one token. -/
theorem Value.text_float {x : Binary64} (hx : x.isFinite = true) :
    (Value.float x).text.toList ∈ Numeral.floatPattern.matches' ∧
      (∃ shown written : Decimal, Decimal.read? x.shortText = some shown ∧
        Decimal.read? (Value.float x).text.toList = some written ∧
        written.negative = shown.negative ∧ written.absolute = shown.absolute ∧
        Binary64.ofDecimal shown = x ∧ Binary64.ofDecimal written = x) ∧
      ('e' ∈ (Value.float x).text.toList ↔
        ¬ (x.isZero = true ∨ 10 ^ (-4 : Int) ≤ x.absolute ∧ x.absolute < 10 ^ 16)) ∧
      placedTokens (Value.float x).text =
        [⟨⟨.float, (Value.float x).text.toList⟩, 0, byteSize (Value.float x).text.toList⟩] := by
  have hform := x.wellFormed_shortNumeral
  have htext : (Value.float x).text.toList = x.shortNumeral.withPoint.text := by
    rw [Value.text, Value.floatText, if_pos hx, String.toList_ofList, ← x.text_shortNumeral,
      Numeral.pointed_text hform]
  refine ⟨?_, ⟨x.shortNumeral.decimal, x.shortNumeral.withPoint.decimal, ?_, ?_, ?_, ?_, ?_, ?_⟩,
    ?_, ?_⟩
  · rw [htext]
    exact hform.withPoint.text_mem (Numeral.fraction_withPoint_ne_nil _)
      (by rw [Numeral.power_withPoint]; exact x.power_shortNumeral_ne_zero)
  · rw [← x.text_shortNumeral, Numeral.read?_text hform]
  · rw [htext, Numeral.read?_text hform.withPoint]
  · exact Numeral.negative_withPoint _
  · exact Numeral.absolute_withPoint _
  · exact Binary64.ofDecimal_of_absolute hx x.negative_shortNumeral x.absolute_shortNumeral
  · exact Binary64.ofDecimal_of_absolute hx
      ((Numeral.negative_withPoint _).trans x.negative_shortNumeral)
      ((Numeral.absolute_withPoint _).trans x.absolute_shortNumeral)
  · rw [htext, hform.withPoint.e_mem_text, Numeral.power_withPoint, ne_eq,
      Binary64.power_shortNumeral_eq_none]
  · rw [placedTokens, Value.lexemes_text_float hx]
    simp [Source.placeTokens]

/-- The negative number closest to zero. -/
def leastNegative : Binary64 := ⟨0x8000000000000001⟩

theorem text_leastNegative : leastNegative.isFinite = true ∧
    (Value.float leastNegative).text = "-5.0e-324" ∧
    "-5.0e-324".toList ∈ Numeral.floatPattern.matches' ∧
    (∃ shown written : Decimal, Decimal.read? "-5e-324".toList = some shown ∧
      Decimal.read? "-5.0e-324".toList = some written ∧ written.absolute = shown.absolute ∧
      Binary64.ofDecimal written = leastNegative) ∧
    placedTokens "-5.0e-324" = [⟨⟨.float, "-5.0e-324".toList⟩, 0, 9⟩] := by
  have hfinite : leastNegative.isFinite = true := by decide
  have hshort : leastNegative.shortText = "-5e-324".toList := by decide +kernel
  have htext : (Value.float leastNegative).text = "-5.0e-324" := by decide +kernel
  obtain ⟨hform, ⟨shown, written, hshown, hwritten, -, habsolute, -, hread⟩, -, hplaced⟩ :=
    Value.text_float hfinite
  rw [hshort] at hshown
  rw [htext] at hform hwritten hplaced
  exact ⟨hfinite, htext, hform, ⟨shown, written, hshown, hwritten, habsolute, hread⟩, hplaced⟩

end QueryDoc
