/-
# Reading normalises

More is read than is written: leading zeros and plus signs, raw tabs in strings, many spellings of
one real, blank lines.  Whatever a text is read as can be turned back into a program
(`Listing.toProgram?`), and the text of that program, which is one of those that are written, is
read as the same listing (`Listing.ofText_normalises`).

Text does not say of what kind an operand is, so an instruction is turned back with handles of any
kinds; the text that it is written as does not depend on them.
-/
import ProcTree.Proofs.Listing.RoundTrip

namespace ProcTree

/-! ## 1. From a listing to a program -/

/-- The variable that a declaration creates. -/
def ListedVariable.toVariable (v : ListedVariable) : Variable := .ofValue v.name v.value

/-- The operands as those of an instruction, with handles of these kinds.  A list without a shape
is none. -/
def Operands.ofListed? (kindOf : String → Kind) : List ListedOperand → Option Operands
  | [] => some .empty
  | [.variableName a] => some (.one ⟨a, kindOf a⟩)
  | [.variableName a, .variableName b] => some (.two ⟨a, kindOf a⟩ ⟨b, kindOf b⟩)
  | [.variableName a, .variableName b, .variableName c] =>
    some (.three ⟨a, kindOf a⟩ ⟨b, kindOf b⟩ ⟨c, kindOf c⟩)
  | [.address l] => some (.target l)
  | [.variableName a, .address l] => some (.oneTarget ⟨a, kindOf a⟩ l)
  | _ => none

/-- The instruction on a line, made from its opcode and operands, with its label attached. -/
def ListedInstruction.toInstruction? (kindOf : String → Kind) (i : ListedInstruction) :
    Option Instruction := do
  let operands ← Operands.ofListed? kindOf i.operands
  let made ← (Instruction.make i.opcode operands).toOption
  return { made with label := i.label }

/-- The program that a listing describes. -/
def Listing.toProgram? (kindOf : String → Kind) (l : Listing) : Option Program := do
  let code ← l.code.mapM (ListedInstruction.toInstruction? kindOf)
  return ⟨l.declarations.map ListedVariable.toVariable, code⟩

/-! ## 2. Nothing is lost -/

variable (kindOf : String → Kind)

/-- Operands that have a shape are those of an instruction, and are listed as they were. -/
theorem HasShape.exists_operands {os : List ListedOperand} {s : Shape} (h : HasShape os s) :
    ∃ o, Operands.ofListed? kindOf os = some o ∧ o.shape = s ∧ o.listed = os := by
  cases h with
  | empty => exact ⟨.empty, rfl, rfl, rfl⟩
  | one a => exact ⟨.one ⟨a, kindOf a⟩, rfl, rfl, rfl⟩
  | two a b => exact ⟨.two ⟨a, kindOf a⟩ ⟨b, kindOf b⟩, rfl, rfl, rfl⟩
  | three a b c => exact ⟨.three ⟨a, kindOf a⟩ ⟨b, kindOf b⟩ ⟨c, kindOf c⟩, rfl, rfl, rfl⟩
  | target l => exact ⟨.target l, rfl, rfl, rfl⟩
  | oneTarget a l => exact ⟨.oneTarget ⟨a, kindOf a⟩ l, rfl, rfl, rfl⟩

/-- Names come first, and then at most one label. -/
theorem HasShape.names_then_label {os : List ListedOperand} {s : Shape} (h : HasShape os s) :
    ∃ (names : List String) (label : Option Label),
      os = names.map .variableName ++ label.toList.map .address := by
  cases h with
  | empty => exact ⟨[], none, rfl⟩
  | one a => exact ⟨[a], none, rfl⟩
  | two a b => exact ⟨[a, b], none, rfl⟩
  | three a b c => exact ⟨[a, b, c], none, rfl⟩
  | target l => exact ⟨[], some l, rfl⟩
  | oneTarget a l => exact ⟨[a], some l, rfl⟩

/-- An instruction whose operands suit its mnemonic can be made, and is listed as it was. -/
theorem ListedInstruction.exists_instruction {i : ListedInstruction}
    (h : HasShape i.operands i.opcode.shape) :
    ∃ made, i.toInstruction? kindOf = some made ∧ made.listed = i := by
  obtain ⟨o, ho, hshape, hlisted⟩ := h.exists_operands kindOf
  have hmake : Instruction.make i.opcode o = .ok ⟨i.opcode, o, none, hshape⟩ := dif_pos hshape
  refine ⟨⟨i.opcode, o, i.label, hshape⟩, ?_, ?_⟩
  · simp only [toInstruction?, ho, hmake, bind, Option.bind]
    rfl
  · rw [Instruction.listed, hlisted]

/-- Listed things that can each be turned back are listed as they were. -/
theorem exists_mapM_of_listed {α β : Type} {back : α → Option β} {listed : β → α} {xs : List α}
    (h : ∀ x ∈ xs, ∃ y, back x = some y ∧ listed y = x) :
    ∃ ys, xs.mapM back = some ys ∧ ys.map listed = xs := by
  induction xs with
  | nil => exact ⟨[], rfl, rfl⟩
  | cons x xs ih =>
    obtain ⟨y, hy, hx⟩ := h x List.mem_cons_self
    obtain ⟨ys, hys, hxs⟩ := ih fun z hz => h z (List.mem_cons_of_mem x hz)
    refine ⟨y :: ys, ?_, ?_⟩
    · rw [List.mapM_cons, hy, hys]
      rfl
    · rw [List.map_cons, hx, hxs]

namespace Listing

variable {l : Listing}

/-- Every instruction of a listing that is read has the shape that its mnemonic asks for. -/
theorem SpellsListing.shapes {ls : List (List Char)} (h : SpellsListing ls l) :
    ∀ i ∈ l.code, HasShape i.operands i.opcode.shape := by
  obtain ⟨⟨-, his⟩⟩ := h
  intro i hi
  obtain ⟨_, -, hspells⟩ := exists_left_of_forall₂ his i hi
  exact hspells.2

/-- **A listing with suitable operands** is that of a program. -/
theorem exists_program (h : ∀ i ∈ l.code, HasShape i.operands i.opcode.shape) :
    ∃ p, l.toProgram? kindOf = some p ∧ p.listing = l ∧ ∀ v ∈ p.declarations, v.WellKinded := by
  obtain ⟨code, hcode, hlisted⟩ := exists_mapM_of_listed fun i hi =>
    ListedInstruction.exists_instruction kindOf (h i hi)
  refine ⟨⟨l.declarations.map ListedVariable.toVariable, code⟩, ?_, ?_, ?_⟩
  · rw [toProgram?, hcode]
    rfl
  · have hdeclarations : (Variable.listed ∘ ListedVariable.toVariable) = id := rfl
    rw [Program.listing, hlisted, List.map_map, hdeclarations, List.map_id]
  · intro v hv
    obtain ⟨w, -, rfl⟩ := List.mem_map.mp hv
    exact Variable.wellKinded_ofValue w.name w.value

/-- **Reading normalises.**  What a text is read as can always be turned back into a program, with
operands of any kinds, and the text of the program is read as the same, if its reals are read back
from their text.  For every instruction that is read has the shape of its mnemonic, with at most one
label, in last place, and every name that is read can be written. -/
theorem ofText_normalises {text : String} (h : ofText text = .ok l)
    (hreal : ∀ v ∈ l.declarations, ∀ x, v.value = .real x → real? (realChars x) = some x)
    (kindOf : String → Kind) :
    (∃ p, l.toProgram? kindOf = some p ∧ ofText p.text = .ok l) ∧
      (∀ i ∈ l.code, HasShape i.operands i.opcode.shape ∧
        ∃ (names : List String) (label : Option Label),
          i.operands = names.map .variableName ++ label.toList.map .address) ∧
      l.Writable := by
  have hshapes := (ofText_eq_ok_iff.mp h).shapes
  have hwritable := writable_of_ofText h
  obtain ⟨p, hp, rfl, hkinds⟩ := exists_program kindOf hshapes
  refine ⟨⟨p, hp, Program.ofText_text hkinds ?_ (Program.writable_of_listing hwritable)⟩,
    fun i hi => ⟨hshapes i hi, (hshapes i hi).names_then_label⟩, hwritable⟩
  intro v hv x hx
  exact hreal v.listed (List.mem_map_of_mem hv) x hx

/-- The theorem at work on a text that is not as it would be written: the lines end in different
ways, a blank line stands in between, and numbers, a string and a label are spelled freely. -/
theorem ofText_normalises_spellings :
    let text := "  %beginVarDecl\r\n    %var\t@n,Integer,+007\n \t\n" ++
      "    %var\t@s,String,\"a\tb\"\n    %var\t@x,Real,+.5e1\n    %var\t@y,Real,-nan\n" ++
      "  %endVarDecl\nlabel007% :\tifTrueGotoOp\t@z,label7%"
    let normal := "  %beginVarDecl\n    %var\t@n,Integer,7\n" ++
      "    %var\t@s,String,\"a\\tb\"\n    %var\t@x,Real,5.0\n    %var\t@y,Real,NaN\n" ++
      "  %endVarDecl\nlabel7% :\tifTrueGotoOp\t@z,label7%\n"
    ∃ l p, ofText text = .ok l ∧ l.toProgram? (fun _ => .boolean) = some p ∧ p.text = normal ∧
      ofText p.text = .ok l := by
  intro text normal
  let l : Listing := ⟨[⟨"n", .integer 7⟩, ⟨"s", .string "a\tb"⟩, ⟨"x", .real 5⟩,
      ⟨"y", .real (0 / 0)⟩],
    [⟨some ⟨7⟩, .gotoIf, [.variableName "z", .address ⟨7⟩]⟩]⟩
  have hread : ofText text = .ok l := by decide +kernel
  have hreal : ∀ v ∈ l.declarations, ∀ x, v.value = .real x → real? (realChars x) = some x := by
    have hfive : real? (realChars 5) = some 5 := by decide +kernel
    have hnan : real? (realChars (0 / 0)) = some (0 / 0) := by decide +kernel
    intro v hv x hx
    simp only [l, List.mem_cons, List.not_mem_nil, or_false] at hv
    rcases hv with rfl | rfl | rfl | rfl
    · cases hx
    · cases hx
    · cases hx
      exact hfive
    · cases hx
      exact hnan
  obtain ⟨⟨p, hp, hagain⟩, -⟩ := ofText_normalises hread hreal fun _ => .boolean
  have htext : (l.toProgram? fun _ => .boolean).map Program.text = some normal := by decide +kernel
  refine ⟨l, p, hread, hp, ?_, hagain⟩
  simpa [hp] using htext

end Listing
end ProcTree
