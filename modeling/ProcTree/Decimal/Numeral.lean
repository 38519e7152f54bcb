/-
# Reading a decimal numeral

A numeral is digits with at most one point among them and at least one digit, followed by an
optional exponent: `e` or `E`, an optional sign and at least one digit.  Its value is kept as a
whole number and a power of ten, so nothing is rounded here.
-/
import ProcTree.Decimal.Digits

namespace ProcTree.Decimal

/-- The value `digits * 10 ^ exponent` of a numeral. -/
structure Numeral where
  digits : Nat
  exponent : Int
deriving DecidableEq, Repr

/-- The power of ten after the digits: nothing, or a mark and a signed number. -/
def exponent? : List Char → Option Int
  | [] => some 0
  | c :: cs => if c = 'e' ∨ c = 'E' then int? cs else none

/-- Reads a numeral without a sign. -/
def Numeral.ofChars? (cs : List Char) : Option Numeral :=
  let whole := cs.takeWhile Char.isDigit
  let (part, rest) := match cs.dropWhile Char.isDigit with
    | '.' :: r => (r.takeWhile Char.isDigit, r.dropWhile Char.isDigit)
    | r => ([], r)
  if whole.isEmpty ∧ part.isEmpty then none
  else (exponent? rest).map fun e =>
    { digits := Nat.ofDigitChars 10 (whole ++ part) 0, exponent := e - part.length }

end ProcTree.Decimal
