/-
# Reals and their text

A real is a double.  `realText` writes the fewest digits that read back as the same double,
positionally from a ten-thousandth up to ten to the sixteenth and with an exponent outside that
range; `real?` reads every decimal numeral and rounds it to the nearest double, ties to even.
Infinities and the one NaN have words of their own, read in any letter case.
-/
import ProcTree.Decimal.Layout
import ProcTree.Decimal.Numeral

namespace ProcTree
open Float.Model (UnpackedFloat)

/-! ## 1. Writing -/

/-- Reals keep a digit after the point when they are written positionally, and are written
positionally while their point stands at most three places before their digits and at most
sixteen after their first. -/
def realLayout : Decimal.Layout :=
  { leastPoint := -3, greatestPoint := 16, wholeTail := ['.', '0'], exponentMark := 'e' }

/-- The doubles below this value are half as far apart as those above it: it is a power of two
and not the least one with a full significand. -/
def isNarrowBelow (m : Nat) (q : Int) : Bool := m = 1 <<< 52 && -1074 < q

/-- The digits of the positive double `m * 2 ^ q`. -/
def finiteChars (m : Nat) (q : Int) : List Char :=
  realLayout.write (Decimal.shortest (.around m q (isNarrowBelow m q)))

/-- A minus for the negative sign, nothing for the positive one. -/
def signChars : UnpackedFloat.Sign → List Char
  | .positive => []
  | .negative => ['-']

/-- The text of a real.  NaN has no sign; zero has one. -/
def realChars (x : Float) : List Char :=
  match x.toModel.unpack with
  | .notANumber => ['N', 'a', 'N']
  | .infinity s => signChars s ++ ['i', 'n', 'f']
  | .zero s => signChars s ++ ['0', '.', '0']
  | .finite s m q _ => signChars s ++ finiteChars m q

def realText (x : Float) : String := String.ofList (realChars x)

example : realText 100 = "100.0" := by decide +kernel
example : realText (-0.0) = "-0.0" := by decide +kernel
example : realText 0.0001 = "0.0001" := by decide +kernel
example : realText 0.00001 = "1e-5" := by decide +kernel
example : realText 9999999999999998 = "9999999999999998.0" := by decide +kernel
example : realText 1e16 = "1e16" := by decide +kernel
example : realText 5e-324 = "5e-324" := by decide +kernel

/-! Both 900719925474099.2 and 900719925474099.3 read back as this double, half way between. -/

example : realText 900719925474099.25 = "900719925474099.3" := by decide +kernel

/-! ## 2. Reading -/

/-- The positive real written by a word or a numeral. -/
def magnitude? (cs : List Char) : Option Float :=
  let word := String.ofList (cs.map Char.toLower)
  if word = "inf" ∨ word = "infinity" then some (1 / 0)
  else if word = "nan" then some (0 / 0)
  else (Decimal.Numeral.ofChars? cs).map fun n =>
    Float.ofScientific n.digits (n.exponent < 0) n.exponent.natAbs

/-- The real written by these characters, after an optional sign. -/
def real? : List Char → Option Float
  | '-' :: cs => (magnitude? cs).map Float.neg
  | '+' :: cs => magnitude? cs
  | cs => magnitude? cs

/-! ## 3. Widening -/

/-- The double nearest to an integer, ties to even. -/
def widen (i : Int64) : Float := Float.ofInt i.toInt

end ProcTree
