/-
# What can go wrong

Every pass over a program tree, the reader of program text and the output fail with one of these
causes.  A cause names the construct, the variable or the types that it is about, as they are
shown to the user; `message` says what happened, `tip` what to do about it, and `category` groups
the causes for a caller that only has to choose between a few reactions.
-/
import ProcTree.Code.Label
import ProcTree.Text.Quoted

namespace ProcTree

/-! ## 1. Causes and their categories -/

/-- The cause of a failure. -/
inductive Error where
  /-- A value of one kind was asked for a value of another. -/
  | typeMismatch (expected received : String)
  /-- The operands of an operator have the wrong types. -/
  | invalidOperands (operator message : String)
  /-- The condition of an `if` or a `while` is not a boolean. -/
  | conditionNotBoolean (construct received : String)
  /-- A variable does not take values of this type. -/
  | invalidAssignment (variableName expected received : String)
  /-- A construct that needs a value was given a statement without one. -/
  | missingValue (construct : String)
  | alreadyDeclared (variableName : String)
  | notDeclared (variableName : String)
  /-- No meaning or no instruction exists for this operation on this kind. -/
  | unsupportedOperation (operation operand : String)
  /-- A variable was requested without a kind. -/
  | untypedVariable (variableName : String)
  /-- The operands of an instruction do not have its opcode's shape. -/
  | shapeMismatch (opcode expected received : String)
  | divisionByZero
  /-- A jump goes to a label that no instruction carries. -/
  | danglingLabel (label : Label)
  | duplicateLabel (label : Label)
  /-- This line of a program text is not what its place requires. -/
  | malformedListing (line : Nat) (text : String)
  /-- The output could not be written. -/
  | io (message : String)
deriving DecidableEq, Repr

/-- The groups of causes. -/
inductive Category where
  | typeMismatch
  | redeclaration
  | undeclaredVariable
  | unsupportedOperation
  | divisionByZero
  | malformedProgram
  | io
deriving DecidableEq, Repr

/-- The word for a category. -/
def Category.name : Category → String
  | typeMismatch => "TypeMismatch"
  | redeclaration => "Redeclaration"
  | undeclaredVariable => "UndeclaredVariable"
  | unsupportedOperation => "UnsupportedOperation"
  | divisionByZero => "DivisionByZero"
  | malformedProgram => "MalformedProgram"
  | io => "Io"

namespace Error

def category : Error → Category
  | typeMismatch .. | invalidOperands .. | conditionNotBoolean .. | invalidAssignment ..
  | missingValue .. => .typeMismatch
  | alreadyDeclared .. => .redeclaration
  | notDeclared .. => .undeclaredVariable
  | unsupportedOperation .. | untypedVariable .. | shapeMismatch .. => .unsupportedOperation
  | divisionByZero => .divisionByZero
  | danglingLabel .. | duplicateLabel .. | malformedListing .. => .malformedProgram
  | io .. => .io

/-! ## 2. What the user reads -/

/-- The word that heads a report of this cause. -/
def name : Error → String
  | typeMismatch .. => "TypeMismatch"
  | invalidOperands .. => "InvalidOperands"
  | conditionNotBoolean .. => "ConditionNotBoolean"
  | invalidAssignment .. => "InvalidAssignment"
  | missingValue .. => "MissingValue"
  | alreadyDeclared .. => "VariableAlreadyDeclared"
  | notDeclared .. => "VariableNotDeclared"
  | unsupportedOperation .. => "UnsupportedOperation"
  | untypedVariable .. => "UntypedVariable"
  | shapeMismatch .. => "OperandShapeMismatch"
  | divisionByZero => "DivisionByZero"
  | danglingLabel .. => "DanglingLabel"
  | duplicateLabel .. => "DuplicateLabel"
  | malformedListing .. => "MalformedListing"
  | io .. => "Io"

/-- What happened. -/
def message : Error → String
  | typeMismatch expected received =>
    "type mismatch: expected " ++ expected ++ ", received " ++ received
  | invalidOperands operator message => "invalid operands for " ++ operator ++ ": " ++ message
  | conditionNotBoolean construct received =>
    construct ++ " condition requires a Boolean expression, received " ++ received
  | invalidAssignment x expected received =>
    "invalid assignment to " ++ Text.quoted x ++ ": expected " ++ expected ++ ", received " ++
      received
  | missingValue construct => construct ++ " requires an expression with a value"
  | alreadyDeclared x => "variable " ++ Text.quoted x ++ " already declared"
  | notDeclared x => "variable " ++ Text.quoted x ++ " not declared"
  | unsupportedOperation operation operand =>
    "unsupported operation " ++ operation ++ " on " ++ operand
  | untypedVariable x => "variable " ++ Text.quoted x ++ " cannot be given a non-supported type"
  | shapeMismatch opcode expected received =>
    opcode ++ " expects " ++ expected ++ " operands, received " ++ received
  | divisionByZero => "integer division by zero"
  | danglingLabel label => label.text ++ " is used as a jump target but never attached"
  | duplicateLabel label => label.text ++ " is attached to more than one instruction"
  | malformedListing line text =>
    "malformed program text at line " ++ Decimal.natText line ++ ": " ++ Text.quoted text
  | io message => "output error: " ++ message

/-- What to do about it, for the causes that the user can mend. -/
def tip : Error → Option String
  | typeMismatch expected received =>
    some ("Expected a `" ++ expected ++ "` value, received `" ++ received ++ "`")
  | invalidOperands operator message => some ("Operator `" ++ operator ++ "`: " ++ message)
  | conditionNotBoolean construct _ =>
    some ("The `" ++ construct ++ "` condition must be a Boolean expression")
  | invalidAssignment x expected _ =>
    some ("`" ++ x ++ "` only accepts `" ++ expected ++ "` values (or Integer, if it is Real)")
  | missingValue construct =>
    some ("`" ++ construct ++ "` needs an expression that produces a value")
  | alreadyDeclared x => some ("Variable `" ++ x ++ "` already declared")
  | notDeclared x => some ("Variable `" ++ x ++ "` not declared")
  | untypedVariable x =>
    some ("Variable `" ++ x ++ "` needs one of Boolean, Integer, Real or String")
  | danglingLabel label => some ("No instruction carries `" ++ label.text ++ "`")
  | duplicateLabel label =>
    some ("`" ++ label.text ++ "` is attached to more than one instruction")
  | malformedListing line _ =>
    some ("Check line " ++ Decimal.natText line ++ " of the program text")
  | unsupportedOperation .. | shapeMismatch .. | divisionByZero | io .. => none

/-- The report for the user: the word for the cause, the tip if there is one, and on a second
line the message. -/
def report (e : Error) : String :=
  let note := match e.tip with
    | some t => " (" ++ t ++ ")"
    | none => ""
  "Error: " ++ e.name ++ note ++ "\n-> " ++ e.message

end Error
end ProcTree
