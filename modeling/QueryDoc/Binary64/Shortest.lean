import QueryDoc.Binary64

/-!
# QueryDoc.Binary64.Shortest

The shortest decimal number that reads back as a given binary one, and the texts made
from it.

A finite number stands for all reals that round to it: an interval around it, with its
ends exactly if the significand is even. The shortest decimal number is the point of that
interval on the coarsest grid of multiples of a power of ten that has one there; of two
such points next to the number the nearer is taken, and the upper one if both are equally
near.
-/

namespace QueryDoc.Binary64

/-! ## The interval of a number, in whole units -/

/-- The reals that round to one number, as whole multiples of a common unit. -/
structure Interval where
  low : Nat
  value : Nat
  high : Nat
  /-- Whether the ends round to the number too. -/
  closed : Bool

namespace Interval

/-- Whether a point rounds to the number. -/
def has (i : Interval) (point : Nat) : Bool :=
  if i.closed then decide (i.low ≤ point ∧ point ≤ i.high)
  else decide (i.low < point ∧ point < i.high)

/-- Looks for the coarsest grid of multiples of `10^k`, `k ≤ steps`, with a point in the
interval; the answer is the multiple and `k`. The unit grid holds the value itself. -/
def coarsest (i : Interval) : (steps : Nat) → Nat × Nat
  | 0 => (i.value, 0)
  | k + 1 =>
    let step := Nat.pow 10 (k + 1)
    let below := i.value / step
    let down := i.has (below * step)
    let up := i.has ((below + 1) * step)
    if down ∧ (¬ up ∨ i.value - below * step < (below + 1) * step - i.value) then (below, k + 1)
    else if up then (below + 1, k + 1)
    else coarsest i k

end Interval

/-- A quarter of the distance between neighbours is `2^u`; as a multiple of a power of ten
with `u` places after the point (none if `u` is positive) it is this whole number. -/
def unit (u : Int) : Nat := if u < 0 then Nat.pow 5 (-u).toNat else 1 <<< u.toNat

/-- The interval of a finite number other than zero. The neighbour below is nearer where the
significand is the smallest one with 53 bits. -/
def interval (x : Binary64) : Interval :=
  let m := x.significand
  let gap := if m = 1 <<< 52 ∧ 1 < x.biasedExponent then 1 else 2
  let u := unit (x.exponent - 2)
  { low := (4 * m - gap) * u, value := 4 * m * u, high := (4 * m + 2) * u,
    closed := decide (m % 2 = 0) }

/-- The shortest decimal number that reads back as this finite number. -/
def shortest (x : Binary64) : Decimal :=
  if x.isZero then ⟨x.isNegative, 0, 0⟩
  else
    let i := x.interval
    let (coefficient, k) := i.coarsest (Decimal.digits i.value).length
    ⟨x.isNegative, coefficient, min (x.exponent - 2) 0 + k⟩

/-! ## Texts -/

/-- Whether a number of this magnitude is written positionally: from `0.0001` up to, but
without, ten to the sixteenth. -/
def IsPositional (magnitude : Int) : Prop := -3 ≤ magnitude ∧ magnitude ≤ 16

instance (magnitude : Int) : Decidable (IsPositional magnitude) := by
  unfold IsPositional; infer_instance

/-- The shortest text of a finite number: positional with at least one place after the point
for moderate magnitudes, and with a power of ten (and a point only if needed) for others. -/
def shortText (x : Binary64) : List Char :=
  let d := x.shortest
  if d.coefficient = 0 ∨ IsPositional d.magnitude then
    if 0 ≤ d.exponent then d.positional ++ ['.', '0'] else d.positional
  else d.scientific

/-- A text with a point: `.0` is put in front of the power of ten, or at the end, of a text
that has none. -/
def pointed (text : List Char) : List Char :=
  if '.' ∈ text then text
  else text.takeWhile (· ≠ 'e') ++ '.' :: '0' :: text.dropWhile (· ≠ 'e')

/-- The shortest positional text, without a point if the number is whole. -/
def plainText (x : Binary64) : List Char :=
  if x.isNaN then ['N', 'a', 'N']
  else if ¬ x.isFinite then (if x.isNegative then ['-'] else []) ++ ['i', 'n', 'f']
  else x.shortest.positional

end QueryDoc.Binary64
