import QueryDoc.Character

/-!
# QueryDoc.Decimal

Decimal numbers `±c · 10^e` and their texts. A number is written positionally
(`0.015`, `1200`) or with one digit before the point and a power of ten
(`1.5e-2`, `1.2e3`), and is read from either form.

Texts are lists of characters here: they are built and taken apart digit by digit.
-/

namespace QueryDoc

/-- The number `coefficient · 10 ^ exponent`, negated if `negative`. Zero keeps its sign. -/
structure Decimal where
  negative : Bool
  coefficient : Nat
  exponent : Int
deriving DecidableEq, Repr

namespace Decimal

/-! ## Digits -/

/-- The decimal digits of a number, the leading one first. -/
def digits (n : Nat) : List Char := Nat.toDigits 10 n

/-- The number that a row of decimal digits stands for. -/
def ofDigits (ds : List Char) : Nat := Nat.ofDigitChars 10 ds 0

theorem ofDigits_digits (n : Nat) : ofDigits (digits n) = n :=
  Nat.ofDigitChars_toDigits (by decide) (by decide)

theorem isDigit_of_mem_digits {n : Nat} {c : Char} (h : c ∈ digits n) : c.isDigit = true :=
  Nat.isDigit_of_mem_toDigits (by decide) (by decide) h

/-- An integer in decimal, with a minus sign if it is negative. -/
def intText (n : Int) : List Char :=
  if n < 0 then '-' :: digits n.natAbs else digits n.natAbs

/-- The power of ten of the digit in front of which a leading zero would stand:
the number is below `10 ^ magnitude`, and not below a tenth of that unless it is zero. -/
def magnitude (x : Decimal) : Int := (digits x.coefficient).length + x.exponent

/-! ## Writing -/

/-- A minus sign for a negative number. -/
def sign (x : Decimal) : List Char := if x.negative then ['-'] else []

/-- All digits up to the ones, and the fraction behind a point if there is one. -/
def positional (x : Decimal) : List Char :=
  let ds := digits x.coefficient
  if 0 ≤ x.exponent then x.sign ++ ds ++ List.replicate x.exponent.toNat '0'
  else
    let places := (-x.exponent).toNat
    if ds.length ≤ places then
      x.sign ++ '0' :: '.' :: List.replicate (places - ds.length) '0' ++ ds
    else
      x.sign ++ ds.take (ds.length - places) ++ '.' :: ds.drop (ds.length - places)

/-- The leading digit, the others behind a point if there are any, and the power of ten. -/
def scientific (x : Decimal) : List Char :=
  let ds := digits x.coefficient
  let fraction := if ds.length ≤ 1 then [] else '.' :: ds.drop 1
  x.sign ++ ds.take 1 ++ fraction ++ 'e' :: intText (x.magnitude - 1)

/-! ## Reading -/

/-- Reads the power of ten: nothing at all, or `e`, an optional sign and digits. -/
def readExponent? : List Char → Option Int
  | [] => some 0
  | c :: rest =>
    if c = 'e' ∨ c = 'E' then
      match rest with
      | '+' :: ds => unsigned? ds
      | '-' :: ds => (unsigned? ds).map fun n => -n
      | ds => unsigned? ds
    else none
where
  /-- Reads digits and nothing else. -/
  unsigned? (ds : List Char) : Option Int :=
    if ds ≠ [] ∧ ds.all Char.isDigit then some (ofDigits ds) else none

/-- Reads a number without sign: digits, a fraction if there is a point, a power of ten. -/
def readUnsigned? (negative : Bool) (cs : List Char) : Option Decimal :=
  let (whole, rest) := spanDigits cs
  if whole = [] then none
  else
    match rest with
    | '.' :: rest =>
      let (fraction, rest) := spanDigits rest
      if fraction = [] then none
      else (readExponent? rest).map fun e =>
        ⟨negative, ofDigits (whole ++ fraction), e - fraction.length⟩
    | rest => (readExponent? rest).map fun e => ⟨negative, ofDigits whole, e⟩

/-- Reads a number in either form; a fraction and a power of ten need at least one digit. -/
def read? : List Char → Option Decimal
  | '-' :: cs => readUnsigned? true cs
  | cs => readUnsigned? false cs

end Decimal

end QueryDoc
