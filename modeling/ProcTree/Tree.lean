/-
# Program trees

A program is one tree.  Constants, references and operators produce values; assignments, output,
choices, loops and blocks produce none.  Nothing in the type keeps a statement from standing where
a value is needed: that is for the type checker (`Typing.lean`), and evaluation and lowering say
what happens without it.

`Tree.agrees` is equality of trees in which constants are compared by content.
-/
import ProcTree.Operator
import ProcTree.Variable

namespace ProcTree

/-- A node of a program. -/
inductive Tree where
  | constant (v : Value)
  | reference (h : Handle)
  | negation (operand : Tree)
  | binary (op : Operator) (left right : Tree)
  | assign (target : Handle) (value : Tree)
  /-- `write` of a value, or `writeln` when `newline` is set. -/
  | write (value : Tree) (newline : Bool)
  | choice (condition yes : Tree)
  | choiceElse (condition yes no : Tree)
  | loop (condition body : Tree)
  | block (statements : List Tree)

namespace Tree

/-! ## 1. Induction -/

/-- **Induction over trees**: a block may assume the property of each of its statements. -/
theorem ind {motive : Tree → Prop}
    (constant : ∀ v, motive (.constant v))
    (reference : ∀ h, motive (.reference h))
    (negation : ∀ a, motive a → motive (.negation a))
    (binary : ∀ op a b, motive a → motive b → motive (.binary op a b))
    (assign : ∀ h a, motive a → motive (.assign h a))
    (write : ∀ a n, motive a → motive (.write a n))
    (choice : ∀ c a, motive c → motive a → motive (.choice c a))
    (choiceElse : ∀ c a b, motive c → motive a → motive b → motive (.choiceElse c a b))
    (loop : ∀ c a, motive c → motive a → motive (.loop c a))
    (block : ∀ ts, (∀ t ∈ ts, motive t) → motive (.block ts)) :
    ∀ t, motive t :=
  @Tree.rec motive (fun ts => ∀ t ∈ ts, motive t)
    constant reference negation binary assign write choice choiceElse loop block
    (fun _ h => nomatch h)
    (fun _ _ ht hts _ h => (List.mem_cons.mp h).elim (fun e => e ▸ ht) (hts _))

/-! ## 2. Equality -/

mutual

/-- The same shape, operators, handles and contents.  A tree with a NaN does not agree with
itself. -/
def agrees : Tree → Tree → Bool
  | .constant v, .constant w => v.agrees w
  | .reference h, .reference g => h = g
  | .negation a, .negation b => a.agrees b
  | .binary op a b, .binary op' a' b' => op = op' && a.agrees a' && b.agrees b'
  | .assign h a, .assign g b => h = g && a.agrees b
  | .write a n, .write b m => a.agrees b && n = m
  | .choice c a, .choice c' a' => c.agrees c' && a.agrees a'
  | .choiceElse c a b, .choiceElse c' a' b' => c.agrees c' && a.agrees a' && b.agrees b'
  | .loop c a, .loop c' a' => c.agrees c' && a.agrees a'
  | .block ts, .block us => allAgree ts us
  | _, _ => false

/-- Lists of the same length whose trees agree place by place. -/
def allAgree : List Tree → List Tree → Bool
  | [], [] => true
  | t :: ts, u :: us => t.agrees u && allAgree ts us
  | _, _ => false

end

end Tree
end ProcTree
