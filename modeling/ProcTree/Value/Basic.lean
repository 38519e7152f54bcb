/-
# Values

A value has one of the four kinds, fixed when it is made.  The accessors give the content of one
kind and fail on the others, except that an integer can always be read as a real.

`agrees` is the equality of contents: reals are compared as numbers, so zero agrees with minus
zero and NaN with nothing.  Equality of values in the sense of `=` is finer on the first and
coarser on the second.
-/
import ProcTree.Error
import ProcTree.Kind
import ProcTree.Value.Real

namespace ProcTree

/-- A boolean, an integer of sixty-four bits, a double or a text. -/
inductive Value where
  | boolean (b : Bool)
  | integer (i : Int64)
  | real (x : Float)
  | string (s : String)
deriving DecidableEq, Repr

/-- A value that is known to be numeric. -/
inductive Number where
  | integer (i : Int64)
  | real (x : Float)
deriving DecidableEq, Repr

namespace Value

/-! ## 1. Kind, zero and text -/

def kind : Value → Kind
  | boolean _ => .boolean
  | integer _ => .integer
  | real _ => .real
  | string _ => .string

/-- The value that a variable of this kind starts with. -/
def zero : Kind → Value
  | .boolean => boolean false
  | .integer => integer 0
  | .real => real 0
  | .string => string ""

@[simp] theorem kind_zero (k : Kind) : (zero k).kind = k := by cases k <;> rfl

/-- What `write` prints. -/
def text : Value → String
  | boolean true => "true"
  | boolean false => "false"
  | integer i => Decimal.intText i.toInt
  | real x => realText x
  | string s => s

/-! ## 2. Accessors -/

/-- The failure of asking a value for another kind. -/
def mismatch (v : Value) (expected : Kind) : Error :=
  .typeMismatch expected.name v.kind.name

def asBoolean : Value → Except Error Bool
  | boolean b => .ok b
  | v => .error (v.mismatch .boolean)

def asInteger : Value → Except Error Int64
  | integer i => .ok i
  | v => .error (v.mismatch .integer)

/-- An integer is widened. -/
def asReal : Value → Except Error Float
  | real x => .ok x
  | integer i => .ok (widen i)
  | v => .error (v.mismatch .real)

def asString : Value → Except Error String
  | string s => .ok s
  | v => .error (v.mismatch .string)

def asNumber : Value → Except Error Number
  | integer i => .ok (.integer i)
  | real x => .ok (.real x)
  | v => .error (.typeMismatch "numeric" v.kind.name)

/-! ## 3. Conversion and comparison of contents -/

/-- The value as a place of this kind stores it: an integer becomes a real in a real place. -/
def promote (target : Kind) : Value → Value
  | integer i => if target = .real then real (widen i) else integer i
  | v => v

/-- The same kind and the same content. -/
def agrees : Value → Value → Bool
  | boolean a, boolean b => a = b
  | integer a, integer b => a = b
  | real a, real b => a == b
  | string a, string b => a = b
  | _, _ => false

end Value

namespace Number

def kind : Number → Kind
  | integer _ => .integer
  | real _ => .real

/-- The number as a value. -/
def toValue : Number → Value
  | integer i => .integer i
  | real x => .real x

/-- The number as a double. -/
def toReal : Number → Float
  | integer i => widen i
  | real x => x

end Number
end ProcTree
