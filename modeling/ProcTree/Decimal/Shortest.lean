/-
# The fewest digits that read back

A binary fraction `m * 2 ^ q` stands for every real that rounds to it: an interval that ends half
way to each neighbour, with its ends when `m` is even.  Among the decimals in that interval those
with the fewest digits are the shortest texts of the value, and `shortest` gives the nearest of
them; of two equally near ones it gives the larger.

The search tries one decimal grid after the other, coarsest first.  On each grid only the two
neighbours of the value can be the answer: if a point of the grid lies in the interval, so does
the neighbour between it and the value.  All comparisons are between natural numbers.
-/
import ProcTree.Decimal.Digits

namespace ProcTree.Decimal

/-- The reals that round to a value, over one denominator: the value is `middle / den`, and the
interval ends at `low / den` and `high / den`. -/
structure Interval where
  low : Nat
  middle : Nat
  high : Nat
  den : Nat
  /-- The ends belong to the interval. -/
  closed : Bool

namespace Interval

/-- The reals that round to `m * 2 ^ q`.  The gap below is half as wide as the gap above when
`narrow` is set: then the next smaller value has a smaller exponent. -/
def around (m : Nat) (q : Int) (narrow : Bool) : Interval :=
  let low := if narrow then 4 * m - 1 else 4 * m - 2
  let scale := 1 <<< (q - 2).toNat
  { low := low * scale
    middle := 4 * m * scale
    high := (4 * m + 2) * scale
    den := 1 <<< (2 - q).toNat
    closed := m % 2 = 0 }

/-- The same interval, measured in units of `10 ^ e`. -/
def inUnits (i : Interval) (e : Int) : Interval :=
  let scale := Nat.pow 10 (-e).toNat
  { i with
    low := i.low * scale
    middle := i.middle * scale
    high := i.high * scale
    den := i.den * Nat.pow 10 e.toNat }

/-- The whole number `n` lies in the interval. -/
def holds (i : Interval) (n : Nat) : Bool :=
  let x := n * i.den
  (i.low < x && x < i.high) || (i.closed && (x = i.low || x = i.high))

/-- The whole number nearest to the value among its two neighbours that lie in the interval, the
larger one when both are equally near. -/
def nearest? (i : Interval) : Option Nat :=
  let below := i.middle / i.den
  match i.holds below, i.holds (below + 1) with
  | true, true => if 2 * (i.middle % i.den) < i.den then some below else some (below + 1)
  | true, false => some below
  | false, true => some (below + 1)
  | false, false => none

/-- The number of digits before the decimal point of the value; below one it is the number of
zeros after the point, negated.  The value is below `10 ^ magnitude` and not below a tenth of
that. -/
def magnitude (i : Interval) : Int :=
  if i.den ≤ i.middle then (natChars (i.middle / i.den)).length
  else 1 - (natChars ((i.den - 1) / i.middle)).length

end Interval

/-- The decimal `0.d₁d₂… * 10 ^ point`. -/
structure Fraction where
  digits : List Char
  point : Int
deriving DecidableEq, Repr

/-- The number `n * 10 ^ e` without zeros at its end. -/
def Fraction.ofScaled (n : Nat) (e : Int) : Fraction :=
  let cs := natChars n
  { digits := (cs.reverse.dropWhile (· = '0')).reverse
    point := cs.length + e }

/-- The nearest point of the first grid that has one in the interval, the grids being `10 ^ e`,
`10 ^ (e - 1)` and so on, `finer` of them after the first.  The finest grid gives the neighbour
below when none has a point. -/
def shortestFrom (i : Interval) (e : Int) : Nat → Fraction
  | 0 =>
    let j := i.inUnits e
    .ofScaled (j.nearest?.getD (j.middle / j.den)) e
  | finer + 1 =>
    match (i.inUnits e).nearest? with
    | some n => .ofScaled n e
    | none => shortestFrom i (e - 1) finer

/-- The shortest decimal of a value with at most seventeen significant digits. -/
def shortest (i : Interval) : Fraction := shortestFrom i (i.magnitude - 1) 16

end ProcTree.Decimal
