/-
# Instructions

An instruction is an opcode with operands of its shape and, if it is the target of a jump, a label.
The shape is part of the type: `Instruction.make` is the only way in from operands that are not
known to fit.

In program text an instruction is one line: its label, a tab, the mnemonic, and after another tab
the operands with commas between them.
-/
import ProcTree.Code.Opcode
import ProcTree.Text.Fields
import ProcTree.Variable

namespace ProcTree

/-! ## 1. Operands -/

/-- The operands of an instruction. -/
inductive Operands where
  | empty
  | one (a : Handle)
  | two (a b : Handle)
  | three (a b c : Handle)
  | target (l : Label)
  | oneTarget (a : Handle) (l : Label)
deriving DecidableEq, Repr

namespace Operands

def shape : Operands → Shape
  | empty => .empty
  | one _ => .one
  | two .. => .two
  | three .. => .three
  | target _ => .target
  | oneTarget .. => .oneTarget

@[simp] theorem shape_one (a : Handle) : (one a).shape = .one := rfl

@[simp] theorem shape_two (a b : Handle) : (two a b).shape = .two := rfl

@[simp] theorem shape_three (a b c : Handle) : (three a b c).shape = .three := rfl

@[simp] theorem shape_target (l : Label) : (target l).shape = .target := rfl

@[simp] theorem shape_oneTarget (a : Handle) (l : Label) :
    (oneTarget a l).shape = .oneTarget := rfl

/-- The variables, in order. -/
def handles : Operands → List Handle
  | empty | target _ => []
  | one a | oneTarget a _ => [a]
  | two a b => [a, b]
  | three a b c => [a, b, c]

/-- The label that the instruction may jump to. -/
def target? : Operands → Option Label
  | target l | oneTarget _ l => some l
  | empty | one _ | two .. | three .. => none

/-- The operands as they are written: the variables, then the label. -/
def fields (o : Operands) : List (List Char) :=
  o.handles.map (fun h => '@' :: h.name.toList) ++ o.target?.toList.map Label.chars

end Operands

/-! ## 2. Instructions -/

/-- One step of a lowered program. -/
structure Instruction where
  opcode : Opcode
  operands : Operands
  label : Option Label
  fits : operands.shape = opcode.shape
deriving DecidableEq

namespace Instruction

/-- An instruction without a label, from operands that may not fit. -/
def make (opcode : Opcode) (operands : Operands) : Except Error Instruction :=
  if h : operands.shape = opcode.shape then .ok ⟨opcode, operands, none, h⟩
  else .error
    (.shapeMismatch opcode.mnemonic opcode.shape.description operands.shape.description)

/-- The instruction that does nothing, for a label to stand on. -/
def carrier (label : Label) : Instruction := ⟨.noOp, .empty, some label, rfl⟩

def withLabel (i : Instruction) (label : Label) : Instruction := { i with label := some label }

/-- The label that the instruction may jump to. -/
def target? (i : Instruction) : Option Label := i.operands.target?

/-- The characters before the mnemonic. -/
def labelChars : Option Label → List Char
  | none => ['\t']
  | some l => l.chars ++ [' ', ':', '\t']

/-- The line of the instruction. -/
def chars (i : Instruction) : List Char :=
  let operands := match i.operands.fields with
    | [] => []
    | fs => '\t' :: Text.joinFields fs
  labelChars i.label ++ i.opcode.mnemonic.toList ++ operands

def text (i : Instruction) : String := String.ofList i.chars

end Instruction
end ProcTree
