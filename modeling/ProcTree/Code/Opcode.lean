/-
# Opcodes

The instructions of the machine that lowered programs are written for.  Most come in two versions,
one for integers and one for reals; the version is a parameter of the opcode.  Each opcode has a
mnemonic, by which program text names it, and a shape, which says what operands it takes.

The catalog `Opcode.all` lists them in their fixed order.
-/
import ProcTree.Kind
import ProcTree.Operator

namespace ProcTree

/-! ## 1. Shapes -/

/-- How many variables an instruction names, and whether a jump target follows them. -/
inductive Shape where
  | empty
  | one
  | two
  | three
  | target
  | oneTarget
deriving DecidableEq, Repr

/-- The shape as a message describes it, before the word "operands". -/
def Shape.description : Shape → String
  | empty => "no"
  | one => "one variable"
  | two => "two variable"
  | three => "three variable"
  | target => "one address"
  | oneTarget => "variable and address"

/-! ## 2. The two kinds of numbers -/

/-- The version of an instruction: on integers or on reals. -/
inductive Numeric where
  | integer
  | real
deriving DecidableEq, Repr

namespace Numeric

/-- The version for operands of this kind. -/
def ofKind? : Kind → Option Numeric
  | .integer => some integer
  | .real => some real
  | .boolean | .string => none

def kind : Numeric → Kind
  | integer => .integer
  | real => .real

/-- What the mnemonics of this version start with. -/
def stem : Numeric → String
  | integer => "int"
  | real => "real"

end Numeric

/-! ## 3. Opcodes -/

/-- What an instruction does. -/
inductive Opcode where
  | noOp
  | clearBoolean
  | clear (n : Numeric)
  | write
  | writeLine
  /-- Copies a number. -/
  | copy (n : Numeric)
  /-- Copies a boolean or a string. -/
  | copyOther
  /-- Combines the second operand into the first. -/
  | accumulate (n : Numeric) (a : Arithmetic)
  | negate
  | widen
  /-- The quotient, whole for integers. -/
  | divide (n : Numeric)
  | remainder
  | connect (c : Connective)
  | compare (n : Numeric) (c : Comparison)
  | goto
  | mark
  | gotoUnless
  | gotoIf
deriving DecidableEq, Repr

namespace Opcode

def shape : Opcode → Shape
  | noOp => .empty
  | clearBoolean | clear _ | write | writeLine => .one
  | copy _ | copyOther | accumulate .. | negate | widen => .two
  | divide _ | remainder | connect _ | compare .. => .three
  | goto | mark => .target
  | gotoUnless | gotoIf => .oneTarget

/-- The word for an arithmetic operator inside a mnemonic. -/
def arithmeticWord : Arithmetic → String
  | .add => "Add"
  | .subtract => "Sub"
  | .multiply => "Mul"

/-- The word for a connective inside a mnemonic. -/
def connectiveWord : Connective → String
  | .both => "And"
  | .either => "Or"

/-- The word for a comparison inside a mnemonic. -/
def comparisonWord : Comparison → String
  | .equal => "Equal"
  | .notEqual => "NotEqual"
  | .less => "Lesser"
  | .lessEqual => "LesserEqual"
  | .greater => "Greater"
  | .greaterEqual => "GreaterEqual"

/-- The mnemonic without the syllable that ends every mnemonic. -/
def word : Opcode → String
  | noOp => "no"
  | clearBoolean => "boolClear"
  | clear n => n.stem ++ "Clear"
  | write => "stdOutPrint"
  | writeLine => "stdOutPrintLn"
  | copy n => n.stem ++ "Copy"
  | copyOther => "ideaCopy"
  | accumulate n a => n.stem ++ arithmeticWord a ++ "VarVar"
  | negate => "logicNot"
  | widen => "intToReal"
  | divide n => n.stem ++ "Div"
  | remainder => "mod"
  | connect c => "logic" ++ connectiveWord c
  | compare n c => n.stem ++ comparisonWord c
  | goto => "goto"
  | mark => "addrLabel"
  | gotoUnless => "ifFalseGoto"
  | gotoIf => "ifTrueGoto"

/-- The name of the opcode in program text. -/
def mnemonic (op : Opcode) : String := op.word ++ "Op"

/-- The catalog, in order of shapes. -/
def all : List Opcode :=
  [noOp, clearBoolean, clear .integer, clear .real, write, writeLine, copy .integer, copy .real,
    copyOther, accumulate .integer .add, accumulate .real .add, accumulate .integer .subtract,
    accumulate .real .subtract, accumulate .integer .multiply, accumulate .real .multiply, negate,
    widen, divide .integer, divide .real, remainder, connect .both, connect .either,
    compare .integer .equal, compare .integer .notEqual, compare .real .equal,
    compare .real .notEqual, compare .integer .less, compare .real .less,
    compare .integer .lessEqual, compare .real .lessEqual, compare .integer .greater,
    compare .real .greater, compare .integer .greaterEqual, compare .real .greaterEqual, goto,
    mark, gotoUnless, gotoIf]

/-- The opcode of this name. -/
def ofMnemonic? (s : String) : Option Opcode := all.find? fun op => op.mnemonic = s

theorem mem_all (op : Opcode) : op ∈ all := by
  cases op with
  | clear n | copy n | divide n => cases n <;> decide
  | accumulate n a => cases n <;> cases a <;> decide
  | connect c => cases c <;> decide
  | compare n c => cases n <;> cases c <;> decide
  | _ => decide

/-- The mnemonics are pairwise distinct, so each names its opcode. -/
theorem ofMnemonic?_mnemonic (op : Opcode) : ofMnemonic? op.mnemonic = some op := by
  have h : ∀ o ∈ all, ofMnemonic? o.mnemonic = some o := by decide +kernel
  exact h op (mem_all op)

end Opcode
end ProcTree
