/-
# Static types and the type checker

`staticType` reads the kind of value that a node produces off the node and, for arithmetic, off
its operands.  `check` then goes through a tree and reports the first node that breaks its rule:
operands come before their operator and from left to right, and the condition of a choice or a
loop is settled, rule included, before its branches or its body are looked at.
-/
import ProcTree.Tree

namespace ProcTree

/-! ## 1. Static types -/

/-- The type of an operator's value.  Arithmetic is on integers only when both operands are
integers. -/
def Operator.resultTy (op : Operator) (left right : Ty) : Ty :=
  match op with
  | .comparison _ | .logical _ => some .boolean
  | .realDivision => some .real
  | .wholeDivision _ => some .integer
  | .arithmetic _ =>
    if left = some .integer ∧ right = some .integer then some .integer else some .real

/-- The type of the value that a node produces, or none. -/
def Tree.staticType : Tree → Ty
  | .constant v => some v.kind
  | .reference h => some h.kind
  | .negation _ => some .boolean
  | .binary op a b => op.resultTy a.staticType b.staticType
  | .assign .. | .write .. | .choice .. | .choiceElse .. | .loop .. | .block .. => none

/-! ## 2. The rule of each construct -/

/-- The operator takes operands of these types. -/
def Operator.takes (op : Operator) (left right : Ty) : Bool :=
  match op with
  | .comparison _ => left = right || (Ty.isNumeric left && Ty.isNumeric right)
  | .arithmetic _ | .realDivision => Ty.isNumeric left && Ty.isNumeric right
  | .wholeDivision _ => left = some .integer && right = some .integer
  | .logical _ => left = some .boolean && right = some .boolean

/-- What the user is told when the operands have other types. -/
def Operator.requirement : Operator → String
  | .comparison _ => "comparisons require compatible operands"
  | .arithmetic _ | .realDivision => "+, -, * and / require numeric operands"
  | .wholeDivision _ => "DIV and MOD require integer operands"
  | .logical _ => "boolean operators require boolean operands"

/-- Both operands have a value, and their types suit the operator. -/
def Operator.check (op : Operator) (left right : Ty) : Except Error Unit :=
  if left = none ∨ right = none then .error (.missingValue op.symbol)
  else if op.takes left right then .ok ()
  else .error (.invalidOperands op.symbol op.requirement)

/-- Only a boolean can be negated. -/
def checkNegation (operand : Ty) : Except Error Unit :=
  if operand = some .boolean then .ok ()
  else .error (.invalidOperands negationSymbol "NOT requires a boolean operand")

/-- Only a boolean can be the condition of the construct. -/
def checkCondition (construct : String) (condition : Ty) : Except Error Unit :=
  if condition = some .boolean then .ok ()
  else .error (.conditionNotBoolean construct (Ty.name condition))

/-- The variable takes values of this type. -/
def Handle.check (target : Handle) (value : Ty) : Except Error Unit :=
  if Ty.accepts (some target.kind) value then .ok ()
  else .error (.invalidAssignment target.name target.kind.name (Ty.name value))

/-- Only a value can be written. -/
def checkWritten (value : Ty) : Except Error Unit :=
  if value = none then .error (.missingValue "write") else .ok ()

/-! ## 3. The checker -/

namespace Tree

mutual

/-- Fails at the first node that breaks its rule. -/
def check : Tree → Except Error Unit
  | .constant _ | .reference _ => .ok ()
  | .negation a => do
    a.check
    checkNegation a.staticType
  | .binary op a b => do
    a.check
    b.check
    op.check a.staticType b.staticType
  | .assign target a => do
    a.check
    target.check a.staticType
  | .write a _ => do
    a.check
    checkWritten a.staticType
  | .choice c a => do
    c.check
    checkCondition "if" c.staticType
    a.check
  | .choiceElse c a b => do
    c.check
    checkCondition "if" c.staticType
    a.check
    b.check
  | .loop c a => do
    c.check
    checkCondition "while" c.staticType
    a.check
  | .block ts => checkAll ts

/-- Checks trees in order, up to the first that fails. -/
def checkAll : List Tree → Except Error Unit
  | [] => .ok ()
  | t :: ts => do
    t.check
    checkAll ts

end

/-- One check after another accepts when both do. -/
theorem andThen_eq_ok_iff {x : Except Error Unit} {f : Unit → Except Error Unit} :
    (x >>= f) = .ok () ↔ x = .ok () ∧ f () = .ok () := by
  cases x <;> simp [bind, Except.bind]

theorem checkAll_iff {ts : List Tree} : checkAll ts = .ok () ↔ ∀ t ∈ ts, t.check = .ok () := by
  induction ts with
  | nil => simp [checkAll]
  | cons t ts ih => simp [checkAll, andThen_eq_ok_iff, ih]

/-- A block is accepted when all its trees are. -/
theorem check_block_iff {ts : List Tree} :
    (Tree.block ts).check = .ok () ↔ ∀ t ∈ ts, t.check = .ok () := by rw [check, checkAll_iff]

end Tree
end ProcTree
