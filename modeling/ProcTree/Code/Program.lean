/-
# Lowered programs

A lowered program is its declarations and its code.  Its text is the declarations block and then
one line for each instruction.
-/
import ProcTree.Code.Pairing
import ProcTree.Table

namespace ProcTree

/-- What lowering produces. -/
structure Program where
  declarations : List Variable
  code : List Instruction
deriving DecidableEq

namespace Program

/-- Accepts a program whose labels pair up. -/
def check (p : Program) : Except Error Unit := checkLabels p.code

/-- The lines of the program's text. -/
def lines (p : Program) : List String :=
  declarationLines p.declarations ++ p.code.map Instruction.text

def text (p : Program) : String := Text.unlines p.lines

end Program
end ProcTree
