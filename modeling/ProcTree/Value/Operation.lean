/-
# Operators on values

What each operator gives on two values.  Integers wrap at sixty-four bits, division of integers
truncates toward zero and fails on a zero divisor, and a comparison goes by the kind of its left
operand: booleans are equal or not, strings and pairs of integers are ordered, and everything
else is compared as reals.
-/
import ProcTree.Operator
import ProcTree.Value.Basic

namespace ProcTree

/-! ## 1. Comparisons -/

namespace Comparison

/-- The relation holds of two values that stand in this order. -/
def holds (c : Comparison) (o : Ordering) : Bool :=
  match c with
  | equal => o = .eq
  | notEqual => o ≠ .eq
  | less => o = .lt
  | lessEqual => o ≠ .gt
  | greater => o = .gt
  | greaterEqual => o ≠ .lt

/-- The relation holds of two reals.  NaN is unequal to every real and in no order with any. -/
def reals (c : Comparison) (x y : Float) : Bool :=
  match c with
  | equal => x == y
  | notEqual => x != y
  | less => x < y
  | lessEqual => x ≤ y
  | greater => y < x
  | greaterEqual => y ≤ x

/-- The relation holds of two booleans, which are in no order. -/
def booleans (c : Comparison) (a b : Bool) : Except Error Bool :=
  match c with
  | equal => .ok (a = b)
  | notEqual => .ok (a ≠ b)
  | _ => .error (.unsupportedOperation c.symbol Kind.boolean.name)

/-- The relation holds of two values. -/
def apply (c : Comparison) (left right : Value) : Except Error Bool :=
  match left, right with
  | .boolean a, _ => do c.booleans a (← right.asBoolean)
  | .string a, _ => do return c.holds (compare a (← right.asString))
  | .integer a, .integer b => .ok (c.holds (compare a b))
  | _, _ => do
    let x ← left.asReal
    let y ← right.asReal
    return c.reals x y

end Comparison

/-! ## 2. Arithmetic -/

namespace Arithmetic

/-- On integers, modulo `2 ^ 64`. -/
def integers (a : Arithmetic) (i j : Int64) : Int64 :=
  match a with
  | add => i + j
  | subtract => i - j
  | multiply => i * j

/-- On reals, each result rounded to the nearest double. -/
def reals (a : Arithmetic) (x y : Float) : Float :=
  match a with
  | add => x + y
  | subtract => x - y
  | multiply => x * y

end Arithmetic

/-- Quotient toward zero and the remainder that goes with it.  The quotient of the least integer
by minus one wraps to itself. -/
def WholeDivision.integers (d : WholeDivision) (i j : Int64) : Except Error Int64 :=
  if j = 0 then .error .divisionByZero
  else match d with
    | quotient => .ok (i / j)
    | remainder => .ok (i % j)

def Connective.booleans (c : Connective) (a b : Bool) : Bool :=
  match c with
  | both => a && b
  | either => a || b

/-! ## 3. All operators -/

/-- The value of an operator.  Arithmetic is on integers when the result is to be an integer,
else on reals. -/
def Operator.apply (op : Operator) (result : Ty) (left right : Value) : Except Error Value :=
  match op with
  | .comparison c => (c.apply left right).map .boolean
  | .arithmetic a =>
    if result = some .integer then do
      let i ← left.asInteger
      let j ← right.asInteger
      return .integer (a.integers i j)
    else do
      let x ← left.asReal
      let y ← right.asReal
      return .real (a.reals x y)
  | .realDivision => do
    let x ← left.asReal
    let y ← right.asReal
    return .real (x / y)
  | .wholeDivision d => do
    let i ← left.asInteger
    let j ← right.asInteger
    (d.integers i j).map .integer
  | .logical c => do
    let a ← left.asBoolean
    let b ← right.asBoolean
    return .boolean (c.booleans a b)

end ProcTree
