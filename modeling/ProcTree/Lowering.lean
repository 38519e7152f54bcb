/-
# Lowering

A tree becomes code for a machine of variables and jumps.  The result of an expression is a
variable: a reference gives its own, a constant a temporary that holds it from the start, and an
operator a temporary that its instructions fill.  Statements give none.

A choice can be lowered in two layouts.  The structured one lowers both branches; the legacy one
leaves out the other branch and never attaches the label that a false condition jumps to.
-/
import ProcTree.Lowering.Builder

namespace ProcTree

/-! ## 1. Trees -/

/-- How a choice is lowered. -/
inductive ChoiceLayout where
  | structured
  | legacy
deriving DecidableEq, Repr

namespace Tree
open Lowering

variable {δ : Type} [Registry δ]

mutual

/-- Appends the code of a tree, and gives the variable with its value if it has one. -/
def lower (layout : ChoiceLayout) : Tree → LoweringOn δ (Option Handle)
  | .constant v => do return some (← tempOf v)
  | .reference h => do return some (← lookup h.name)
  | .negation a => do
    let source ← needed negationSymbol (← a.lower layout)
    let result ← temp (some .boolean)
    emit .negate (.two result source)
    return some result
  | .binary op a b => do
    let left ← needed op.symbol (← a.lower layout)
    let right ← needed op.symbol (← b.lower layout)
    let result ← temp (op.resultTy a.staticType b.staticType)
    apply op result left right
    return some result
  | .assign target a => do
    let source ← needed ":=" (← a.lower layout)
    copy target source
    return none
  | .write a newline => do
    let source ← needed (if newline then "writeln" else "write") (← a.lower layout)
    if newline then emit .writeLine (.one source) else emit .write (.one source)
    return none
  | .choice c a => do
    let condition ← needed "if" (← c.lower layout)
    let otherwise ← newLabel
    emit .gotoUnless (.oneTarget condition otherwise)
    discard (a.lower layout)
    match layout with
    | .structured => attach otherwise
    | .legacy => pure ()
    return none
  | .choiceElse c a b => do
    let condition ← needed "if" (← c.lower layout)
    let otherwise ← newLabel
    let done ← newLabel
    emit .gotoUnless (.oneTarget condition otherwise)
    discard (a.lower layout)
    emit .goto (.target done)
    match layout with
    | .structured =>
      attach otherwise
      discard (b.lower layout)
    | .legacy => pure ()
    attach done
    return none
  | .loop c a => do
    let start ← newLabel
    let done ← newLabel
    attach start
    let condition ← needed "while" (← c.lower layout)
    emit .gotoUnless (.oneTarget condition done)
    discard (a.lower layout)
    emit .goto (.target start)
    attach done
    return none
  | .block ts => do
    lowerAll layout ts
    return none

/-- Appends the code of trees in order, up to the first that fails. -/
def lowerAll (layout : ChoiceLayout) : List Tree → LoweringOn δ Unit
  | [] => pure ()
  | t :: ts => do
    discard (t.lower layout)
    lowerAll layout ts

end

/-- Appends the code of an expression that a construct needs. -/
def lowerNeeded (layout : ChoiceLayout) (construct : String) (t : Tree) : LoweringOn δ Handle := do
  needed construct (← t.lower layout)

/-! ## 2. Compilation -/

/-- How a tree is compiled. -/
structure Options where
  layout : ChoiceLayout
  /-- Refuse code whose labels do not pair up. -/
  pairLabels : Bool
deriving DecidableEq, Repr

/-- Both branches, and labels are checked. -/
def Options.standard : Options := ⟨.structured, true⟩

/-- Checks a tree and lowers it against a table, which gains the temporaries whether lowering
succeeds or fails.  A tree that fails the check leaves the table alone. -/
def compile (options : Options) (t : Tree) : EStateM Error (Table δ) Program := fun table =>
  match t.check with
  | .error e => .error e table
  | .ok () =>
    match t.lower options.layout (.ofTable table) with
    | .error e b => .error e b.table
    | .ok _ b =>
      if options.pairLabels then
        match b.program.check with
        | .error e => .error e b.table
        | .ok () => .ok b.program b.table
      else .ok b.program b.table

end Tree
end ProcTree
