/-
# Listings

A listing is what a program text says: the declared names with their values, and the instructions
with names for variables.  The reader accepts only operand lists that fit the opcode; the type does
not insist on it, and a listing is validated as it stands: every declared name once, every operand
declared, labels and jumps paired.
-/
import ProcTree.Code.Pairing

namespace ProcTree

/-! ## 1. Contents -/

/-- A declared name with its value, whose kind is the variable's. -/
structure ListedVariable where
  name : String
  value : Value
deriving DecidableEq, Repr

/-- An operand as it is written. -/
inductive ListedOperand where
  | variableName (name : String)
  | address (l : Label)
deriving DecidableEq, Repr

/-- The label that the operand is, if it is one. -/
def ListedOperand.address? : ListedOperand → Option Label
  | address l => some l
  | variableName _ => none

/-- The name that the operand is, if it is one. -/
def ListedOperand.name? : ListedOperand → Option String
  | variableName name => some name
  | address _ => none

/-- The shape of an operand list, for those that some opcode takes. -/
def listedShape? : List ListedOperand → Option Shape
  | [] => some .empty
  | [.variableName _] => some .one
  | [.variableName _, .variableName _] => some .two
  | [.variableName _, .variableName _, .variableName _] => some .three
  | [.address _] => some .target
  | [.variableName _, .address _] => some .oneTarget
  | _ => none

/-- An instruction line. -/
structure ListedInstruction where
  label : Option Label
  opcode : Opcode
  operands : List ListedOperand
deriving DecidableEq, Repr

/-- The first label among the operands. -/
def ListedInstruction.target? (i : ListedInstruction) : Option Label :=
  i.operands.findSome? ListedOperand.address?

/-- The contents of a program text. -/
structure Listing where
  declarations : List ListedVariable
  code : List ListedInstruction
deriving DecidableEq, Repr

namespace Listing

/-! ## 2. Validation -/

/-- The declared names, in order. -/
def names (l : Listing) : List String := l.declarations.map ListedVariable.name

/-- The names that instructions use, in order. -/
def operandNames (l : Listing) : List String :=
  l.code.flatMap fun i => i.operands.filterMap ListedOperand.name?

/-- Accepts a listing that declares every name once and every operand, and whose labels pair up;
reports a repeated declaration before an undeclared operand, and that before a label. -/
def check (l : Listing) : Except Error Unit :=
  match firstRepeat? [] l.names with
  | some name => .error (.alreadyDeclared name)
  | none =>
    match l.operandNames.find? fun name => name ∉ l.names with
    | some name => .error (.notDeclared name)
    | none =>
      checkPairing (l.code.filterMap ListedInstruction.label)
        (l.code.filterMap ListedInstruction.target?)

end Listing
end ProcTree
