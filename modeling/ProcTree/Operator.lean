/-
# Operators

The language has one unary operator, `not`, and fourteen binary ones in five groups.  The group
decides which operands an operator takes, how it is evaluated and which code it becomes, so each
group has a type of its own and an operator is a member of one of them.
-/

namespace ProcTree

/-- The spelling of negation, the only unary operator. -/
def negationSymbol : String := "not"

/-- The six relations between two values. -/
inductive Comparison where
  | equal
  | notEqual
  | less
  | lessEqual
  | greater
  | greaterEqual
deriving DecidableEq, Repr

/-- Sum, difference and product, of integers or of reals. -/
inductive Arithmetic where
  | add
  | subtract
  | multiply
deriving DecidableEq, Repr

/-- The two results of dividing an integer by an integer. -/
inductive WholeDivision where
  | quotient
  | remainder
deriving DecidableEq, Repr

/-- The two ways to join booleans. -/
inductive Connective where
  | both
  | either
deriving DecidableEq, Repr

/-- The binary operators, by group. -/
inductive Operator where
  | comparison (c : Comparison)
  | arithmetic (a : Arithmetic)
  /-- The quotient of two reals. -/
  | realDivision
  | wholeDivision (d : WholeDivision)
  | logical (c : Connective)
deriving DecidableEq, Repr

def Comparison.symbol : Comparison → String
  | equal => "="
  | notEqual => "<>"
  | less => "<"
  | lessEqual => "<="
  | greater => ">"
  | greaterEqual => ">="

def Arithmetic.symbol : Arithmetic → String
  | add => "+"
  | subtract => "-"
  | multiply => "*"

def WholeDivision.symbol : WholeDivision → String
  | quotient => "div"
  | remainder => "mod"

def Connective.symbol : Connective → String
  | both => "and"
  | either => "or"

namespace Operator

def symbol : Operator → String
  | comparison c => c.symbol
  | arithmetic a => a.symbol
  | realDivision => "/"
  | wholeDivision d => d.symbol
  | logical c => c.symbol

def all : List Operator :=
  [.comparison .equal, .comparison .notEqual, .comparison .less, .comparison .lessEqual,
    .comparison .greater, .comparison .greaterEqual, .arithmetic .add, .arithmetic .subtract,
    .arithmetic .multiply, .realDivision, .wholeDivision .quotient, .wholeDivision .remainder,
    .logical .both, .logical .either]

def ofSymbol? (s : String) : Option Operator := all.find? fun op => op.symbol = s

theorem ofSymbol?_symbol (op : Operator) : ofSymbol? op.symbol = some op := by
  rcases op with c | a | _ | d | c
  · cases c <;> rfl
  · cases a <;> rfl
  · rfl
  · cases d <;> rfl
  · cases c <;> rfl

end Operator
end ProcTree
