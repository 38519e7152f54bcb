/-
# Laying out the digits of a decimal

A decimal `0.d₁d₂… * 10 ^ point` is written positionally while its point stays within the bounds
of a layout, and with an exponent outside them.  The layout also says what a whole number keeps
after its last digit and which letter marks an exponent.
-/
import ProcTree.Decimal.Shortest

namespace ProcTree.Decimal

/-- How digits are arranged on the line. -/
structure Layout where
  /-- The least point that is written positionally. -/
  leastPoint : Int
  /-- The greatest point that is written positionally. -/
  greatestPoint : Int
  /-- What follows the digits of a whole number in positional form. -/
  wholeTail : List Char
  /-- What stands between the digits and the exponent. -/
  exponentMark : Char

namespace Layout

/-- All digits in their places, with zeros where the point lies outside them. -/
def positional (l : Layout) (f : Fraction) : List Char :=
  let before := f.point.toNat
  if f.point ≤ 0 then '0' :: '.' :: (List.replicate (-f.point).toNat '0' ++ f.digits)
  else if f.digits.length ≤ before then
    f.digits ++ List.replicate (before - f.digits.length) '0' ++ l.wholeTail
  else f.digits.take before ++ '.' :: f.digits.drop before

/-- One digit before the point, no point after a lone digit, and an exponent that has a sign only
when it is negative. -/
def scientific (l : Layout) (f : Fraction) : List Char :=
  let tail := f.digits.drop 1
  f.digits.take 1 ++ (if tail.isEmpty then [] else '.' :: tail) ++
    l.exponentMark :: intChars (f.point - 1)

/-- The decimal as this layout writes it. -/
def write (l : Layout) (f : Fraction) : List Char :=
  if l.leastPoint ≤ f.point ∧ f.point ≤ l.greatestPoint then l.positional f else l.scientific f

end Layout
end ProcTree.Decimal
