/-
# Jump labels

A label is a number of sixty-four bits; in program text it is `label`, the number and a percent
sign.
-/
import ProcTree.Decimal.Digits

namespace ProcTree

/-- A name for a place in the code. -/
structure Label where
  number : UInt64
deriving DecidableEq, Repr

namespace Label

/-- The digits of the label's number. -/
def digits (l : Label) : List Char := Decimal.natChars l.number.toNat

def chars (l : Label) : List Char := ['l', 'a', 'b', 'e', 'l'] ++ l.digits ++ ['%']

def text (l : Label) : String := String.ofList l.chars

/-- The label with this number in decimal. -/
def ofDigits? (cs : List Char) : Option Label := (Decimal.uint64? cs).map Label.mk

theorem ofDigits?_digits (l : Label) : ofDigits? l.digits = some l := by
  have h : l.number.toNat < UInt64.size := l.number.toNat_lt
  rw [ofDigits?, digits, Decimal.uint64?, Decimal.nat?_natChars, Option.bind_some, if_pos h]
  simp

end Label
end ProcTree
