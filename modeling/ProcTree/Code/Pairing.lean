/-
# Pairing labels with jumps

Code is closed when no label stands on two instructions and every jump target stands on one.  Only
the sequence of attached labels and the sequence of targets matter.  A repeated label is reported
before any target, and within each sequence the first fault is.
-/
import ProcTree.Code.Instruction

namespace ProcTree

/-- The first element that equals an earlier one or one of those already seen. -/
def firstRepeat? [DecidableEq α] (seen : List α) : List α → Option α
  | [] => none
  | a :: as => if a ∈ seen then some a else firstRepeat? (a :: seen) as

/-- Accepts sequences of attached labels and of jump targets that pair up. -/
def checkPairing (attached targets : List Label) : Except Error Unit :=
  match firstRepeat? [] attached with
  | some l => .error (.duplicateLabel l)
  | none =>
    match targets.find? fun l => l ∉ attached with
    | some l => .error (.danglingLabel l)
    | none => .ok ()

/-- Accepts code whose labels pair up. -/
def checkLabels (code : List Instruction) : Except Error Unit :=
  checkPairing (code.filterMap Instruction.label) (code.filterMap Instruction.target?)

end ProcTree
