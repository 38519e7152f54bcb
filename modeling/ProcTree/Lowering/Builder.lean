/-
# Builders of lowered code

Lowering works on a builder, which keeps the table, the supply of labels and the code so far.  What
was registered and emitted before a failure stays.

Section 1 has one step for each thing that lowering does to a builder, and section 2 the code of an
operator or an assignment once its operands are variables.
-/
import ProcTree.Code.Program
import ProcTree.Typing

namespace ProcTree

/-! ## 1. Builders -/

/-- What lowering has produced so far. -/
structure Builder (δ : Type := List Variable) where
  table : Table δ
  /-- The number of the next label. -/
  nextLabel : Nat
  code : List Instruction

/-- A step of lowering. -/
abbrev LoweringOn (δ : Type) := EStateM Error (Builder δ)

/-- A step of lowering on a table that keeps its variables in a list. -/
abbrev Lowering := LoweringOn (List Variable)

namespace Builder

variable {δ : Type}

/-- A builder for a table: no code, and labels from zero. -/
def ofTable (table : Table δ) : Builder δ := ⟨table, 0, []⟩

/-- The program built so far: all registered variables, all code. -/
def program [Registry δ] (b : Builder δ) : Program := ⟨b.table.toList, b.code⟩

end Builder

namespace Lowering

variable {δ : Type}

/-- Adds an instruction at the end. -/
def append (i : Instruction) : LoweringOn δ Unit := modify fun b => { b with code := b.code ++ [i] }

/-- Adds an instruction whose operands are known to fit. -/
def emit (opcode : Opcode) (operands : Operands)
    (fits : operands.shape = opcode.shape := by
      first
        | exact Operands.shape_one _
        | exact Operands.shape_two _ _
        | exact Operands.shape_three _ _ _
        | exact Operands.shape_target _
        | exact Operands.shape_oneTarget _ _) : LoweringOn δ Unit :=
  append ⟨opcode, operands, none, fits⟩

/-- A label that was not given out before. -/
def newLabel : LoweringOn δ Label :=
  modifyGet fun b => (⟨UInt64.ofNat b.nextLabel⟩, { b with nextLabel := b.nextLabel + 1 })

/-- Lets the label stand here. -/
def attach (l : Label) : LoweringOn δ Unit := append (.carrier l)

def fail (e : Error) : LoweringOn δ α := throw e

/-- The handle of a registered variable. -/
def lookup [Registry δ] (name : String) : LoweringOn δ Handle := do
  match (← get).table.lookup name with
  | .ok h => pure h
  | .error e => fail e

/-- A temporary of this type. -/
def temp [Registry δ] (ty : Ty) : LoweringOn δ Handle := do
  let (result, table) := (← get).table.obtainTemp ty
  modify fun b => { b with table }
  match result with
  | .ok h => pure h
  | .error e => fail e

/-- A temporary that holds this value. -/
def tempOf [Registry δ] (v : Value) : LoweringOn δ Handle :=
  modifyGet fun b =>
    let (h, table) := b.table.obtainTempOf v
    (h, { b with table })

/-- The variable that a construct needs. -/
def needed (construct : String) : Option Handle → LoweringOn δ Handle
  | some h => pure h
  | none => fail (.missingValue construct)

/-! ## 2. Operators and statements on variables -/

/-- The variable as a real: an integer is copied into a real temporary. -/
def asReal [Registry δ] (h : Handle) : LoweringOn δ Handle :=
  if h.kind = .integer then do
    let r ← temp (some .real)
    emit .widen (.two r h)
    pure r
  else pure h

/-- Both variables, the integer one as a real when the other is real. -/
def matched [Registry δ] (left right : Handle) : LoweringOn δ (Handle × Handle) :=
  match left.kind, right.kind with
  | .integer, .real => do return (← asReal left, right)
  | .real, .integer => do return (left, ← asReal right)
  | _, _ => pure (left, right)

/-- The version of an operator's instruction for the kind of its result: integer or else real. -/
def versionFor (k : Kind) : Numeric := if k = .integer then .integer else .real

/-- Fills the result with the operator's value.  Only numbers can be compared. -/
def apply [Registry δ] (op : Operator) (result left right : Handle) : LoweringOn δ Unit :=
  match op with
  | .comparison c => do
    let (left, right) ← matched left right
    match Numeric.ofKind? left.kind with
    | some n => emit (.compare n c) (.three result left right)
    | none => fail (.unsupportedOperation c.symbol left.kind.name)
  | .arithmetic a => do
    let (left, right) ← matched left right
    let n := versionFor result.kind
    emit (.copy n) (.two result left)
    emit (.accumulate n a) (.two result right)
  | .realDivision => do
    let left ← asReal left
    let right ← asReal right
    emit (.divide .real) (.three result left right)
  | .wholeDivision .quotient => emit (.divide .integer) (.three result left right)
  | .wholeDivision .remainder => emit .remainder (.three result left right)
  | .logical c => emit (.connect c) (.three result left right)

/-- Copies the source into the target.  The kinds must be the same, or the target real and the
source an integer. -/
def copy (target source : Handle) : LoweringOn δ Unit :=
  match target.kind, source.kind with
  | .real, .real => emit (.copy .real) (.two target source)
  | .integer, .integer => emit (.copy .integer) (.two target source)
  | .real, .integer => emit .widen (.two target source)
  | .boolean, .boolean | .string, .string => emit .copyOther (.two target source)
  | expected, received => fail (.invalidAssignment target.name expected.name received.name)

end Lowering

end ProcTree
