/-
# Evaluation

A tree is evaluated against a symbol table and an output, and both keep whatever was done to them
when evaluation fails.  Operands are evaluated from left to right, all of them, and an assignment
widens an integer for a real variable.

A loop may run for ever.  `compute` takes a number of rounds that no single loop may exceed, and
stopping for lack of rounds is kept apart from every failure of the program.
-/
import ProcTree.Output
import ProcTree.Table
import ProcTree.Typing
import ProcTree.Value.Operation

namespace ProcTree

/-! ## 1. Runs -/

/-- Why a run stops before its end. -/
inductive Stop where
  | failed (e : Error)
  /-- A loop was not done after the rounds it was given. -/
  | outOfRounds
deriving DecidableEq, Repr

/-- What a run works on. -/
structure Machine (δ : Type := List Variable) where
  table : Table δ
  output : Output
deriving DecidableEq, Repr

/-- A computation that reads and changes a machine and may stop early, leaving the machine as it
is by then. -/
abbrev RunOn (δ : Type) := EStateM Stop (Machine δ)

/-- A run on a table that keeps its variables in a list. -/
abbrev Run := RunOn (List Variable)

namespace Run

variable {δ : Type}

def fail (e : Error) : RunOn δ α := throw (.failed e)

/-- Goes on with a result and stops on an error. -/
def ofExcept : Except Error α → RunOn δ α
  | .ok a => pure a
  | .error e => fail e

/-- The value that a construct needs. -/
def needed (construct : String) : Option Value → RunOn δ Value
  | some v => pure v
  | none => fail (.missingValue construct)

/-- Reads the variable that the handle names. -/
def read [Registry δ] (h : Handle) : RunOn δ Value := do ofExcept ((← get).table.valueOf h)

/-- Stores into the variable that the handle names. -/
def store [Registry δ] (h : Handle) (v : Value) : RunOn δ Unit := do
  let table ← ofExcept ((← get).table.assign h v)
  modify fun m => { m with table }

/-- Writes a text to the output. -/
def put (s : String) : RunOn δ Unit := do
  let (result, output) := (← get).output.write s
  modify fun m => { m with output }
  ofExcept result

/-- Repeats the body while the test holds, testing at most as often as there are rounds. -/
def repeatWhile (test : RunOn δ Bool) (body : RunOn δ Unit) : Nat → RunOn δ Unit
  | 0 => throw .outOfRounds
  | rounds + 1 => do
    if ← test then
      body
      repeatWhile test body rounds
    else pure ()

end Run

/-! ## 2. Trees -/

namespace Tree

variable {δ : Type} [Registry δ]

mutual

/-- Evaluates a tree: the value of an expression, none for a statement. -/
def compute (rounds : Nat) : Tree → RunOn δ (Option Value)
  | .constant v => pure (some v)
  | .reference h => do return some (← Run.read h)
  | .negation a => do
    let v ← Run.needed negationSymbol (← a.compute rounds)
    let b ← Run.ofExcept v.asBoolean
    return some (.boolean !b)
  | .binary op a b => do
    let left ← Run.needed op.symbol (← a.compute rounds)
    let right ← Run.needed op.symbol (← b.compute rounds)
    return some (← Run.ofExcept (op.apply (op.resultTy a.staticType b.staticType) left right))
  | .assign target a => do
    let v ← Run.needed ":=" (← a.compute rounds)
    Run.store target (v.promote target.kind)
    return none
  | .write a newline => do
    let v ← Run.needed "write" (← a.compute rounds)
    Run.put v.text
    if newline then Run.put "\n"
    return none
  | .choice c a => do
    let v ← Run.needed "if" (← c.compute rounds)
    if ← Run.ofExcept v.asBoolean then discard (a.compute rounds)
    return none
  | .choiceElse c a b => do
    let v ← Run.needed "if" (← c.compute rounds)
    if ← Run.ofExcept v.asBoolean then discard (a.compute rounds)
    else discard (b.compute rounds)
    return none
  | .loop c a => do
    let test : RunOn δ Bool := do
      let v ← Run.needed "while" (← c.compute rounds)
      Run.ofExcept v.asBoolean
    Run.repeatWhile test (discard (a.compute rounds)) rounds
    return none
  | .block ts => do
    computeAll rounds ts
    return none

/-- Evaluates trees in order, up to the first that stops. -/
def computeAll (rounds : Nat) : List Tree → RunOn δ Unit
  | [] => pure ()
  | t :: ts => do
    discard (t.compute rounds)
    computeAll rounds ts

end

/-- Checks a tree, evaluates it and closes the output.  A tree that fails the check leaves the
machine alone. -/
def interpret (rounds : Nat) (t : Tree) : RunOn δ Unit := do
  Run.ofExcept t.check
  discard (t.compute rounds)
  Run.ofExcept (← get).output.close

end Tree
end ProcTree
