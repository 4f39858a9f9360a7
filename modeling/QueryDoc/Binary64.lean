import QueryDoc.Decimal

/-!
# QueryDoc.Binary64

Binary floating-point numbers of 64 bits, as the bits that store them: a sign, eleven
bits of exponent, and 52 bits of fraction. All arithmetic on them is exact arithmetic on
natural numbers, so nothing here depends on the machine's floats.

* `significand` and `exponent` give the magnitude of a finite number as `m · 2^q`;
* `nearest` rounds a quotient to the nearest number, a tie to the even significand;
* `ofDecimal` reads a decimal number that way, and `ofBinary32` widens a 32-bit number.
-/

namespace QueryDoc

/-- A binary floating-point number of 64 bits. -/
structure Binary64 where
  bits : UInt64
deriving DecidableEq, Repr

namespace Binary64

/-! ## The parts of a number -/

def isNegative (x : Binary64) : Bool := decide (1 <<< 63 ≤ x.bits.toNat)

/-- The eleven exponent bits. All ones mark the infinities and the values that are no numbers. -/
def biasedExponent (x : Binary64) : Nat := x.bits.toNat >>> 52 % 2048

/-- The 52 fraction bits. -/
def fraction (x : Binary64) : Nat := x.bits.toNat % 1 <<< 52

def isFinite (x : Binary64) : Bool := decide (x.biasedExponent ≠ 2047)

/-- Whether the bits stand for no number at all. -/
def isNaN (x : Binary64) : Bool := decide (x.biasedExponent = 2047 ∧ x.fraction ≠ 0)

def isZero (x : Binary64) : Bool := decide (x.biasedExponent = 0 ∧ x.fraction = 0)

/-- The whole number `m` of a finite magnitude `m · 2^q`. -/
def significand (x : Binary64) : Nat :=
  if x.biasedExponent = 0 then x.fraction else 1 <<< 52 + x.fraction

/-- The power `q` of a finite magnitude `m · 2^q`. -/
def exponent (x : Binary64) : Int := (max x.biasedExponent 1 : Nat) - 1075

/-- Equality of numbers: both zeros are equal, and what is no number equals nothing. -/
def equals (x y : Binary64) : Bool :=
  !x.isNaN && !y.isNaN && (x == y || x.isZero && y.isZero)

/-! ## Rounding -/

/-- The magnitude bits of infinity. -/
def infinityBits : Nat := 2047 <<< 52

/-- The number with the given magnitude bits. -/
def ofMagnitude (negative : Bool) (magnitude : Nat) : Binary64 :=
  ⟨UInt64.ofNat (magnitude + if negative then 1 <<< 63 else 0)⟩

/-- The whole number nearest to a quotient, a tie going to the even one. -/
def roundQuotient (num den : Nat) : Nat :=
  let rest := num % den
  if den < 2 * rest ∨ den = 2 * rest ∧ num / den % 2 = 1 then num / den + 1 else num / den

/-- The quotient `num / den` divided by `2^q`, again as a quotient of whole numbers. -/
def scaleDown (num den : Nat) (q : Int) : Nat × Nat :=
  if 0 ≤ q then (num, den <<< q.toNat) else (num <<< (-q).toNat, den)

/-- The power of two in whose multiples the quotient `num / den` is expressed: the one that
leaves 53 bits before rounding, and never below that of the smallest positive number. -/
def quotientExponent (num den : Nat) : Int :=
  let q := max ((num.log2 : Int) - den.log2 - 53) (-1074)
  let (n, d) := scaleDown num den q
  if d <<< 53 ≤ n then q + 1 else q

/-- The magnitude bits of the number nearest to `num / den`: infinity's if it is too large. -/
def nearestBits (num den : Nat) : Nat :=
  if num = 0 then 0
  else
    let q := quotientExponent num den
    let (n, d) := scaleDown num den q
    min ((q + 1074).toNat <<< 52 + roundQuotient n d) infinityBits

/-- The number nearest to `num / den`, a tie going to the even significand. -/
def nearest (negative : Bool) (num den : Nat) : Binary64 :=
  ofMagnitude negative (nearestBits num den)

/-- The number nearest to a decimal number. Magnitudes of ten to the 400 and beyond are
infinite, and those below ten to the -400 are zero, without a look at their digits. -/
def ofDecimal (x : Decimal) : Binary64 :=
  if x.coefficient = 0 ∨ x.magnitude < -400 then ofMagnitude x.negative 0
  else if 400 < x.magnitude then ofMagnitude x.negative infinityBits
  else if 0 ≤ x.exponent then nearest x.negative (x.coefficient * Nat.pow 10 x.exponent.toNat) 1
  else nearest x.negative x.coefficient (Nat.pow 10 (-x.exponent).toNat)

/-! ## Widening -/

/-- The number that 32 bits of sign, eight bits of exponent and 23 bits of fraction stand
for. Each of them is a number of 64 bits too, so nothing is rounded. -/
def ofBinary32 (bits : UInt32) : Binary64 :=
  let b := bits.toNat
  let negative := decide (1 <<< 31 ≤ b)
  let biased := b >>> 23 % 256
  let fraction := b % 1 <<< 23
  if biased = 255 then ofMagnitude negative (infinityBits + fraction <<< 29)
  else if biased = 0 then nearest negative fraction (1 <<< 149)
  else nearest negative ((1 <<< 23 + fraction) <<< biased) (1 <<< 150)

end Binary64

end QueryDoc
