/-
# Reading program text

A program text is the line that opens the declarations, declaration lines, the line that closes
them, and instruction lines; lines of blanks may stand anywhere and only count.  The first line
that is not what its place requires is reported with its number, and so is the place after the
last line when the declarations are not closed by then.

Sections 1 and 2 read a single line, each function the inverse of the one that writes such a line;
section 3 reads the text.
-/
import ProcTree.Listing
import ProcTree.Table
import ProcTree.Text.Blank

namespace ProcTree

/-! ## 1. Declaration lines -/

/-- The value of a kind, as a declaration writes it. -/
def Value.ofChars? : Kind → List Char → Option Value
  | .boolean, cs =>
    if cs = "true".toList then some (.boolean true)
    else if cs = "false".toList then some (.boolean false)
    else none
  | .integer, cs => (Decimal.int64? cs).map .integer
  | .real, cs => (real? cs).map .real
  | .string, cs => (Text.ofLiteral? cs).map fun s => .string (String.ofList s)

/-- The name in `cs`: not empty, and without commas and blanks. -/
def nameOfChars? (cs : List Char) : Option String :=
  if cs ≠ [] ∧ cs.all (fun c => c ≠ ',' && !Text.isBlank c) then some (String.ofList cs) else none

/-- The rest of a text after a given start. -/
def dropStart? : List Char → List Char → Option (List Char)
  | [], cs => some cs
  | p :: ps, c :: cs => if p = c then dropStart? ps cs else none
  | _ :: _, [] => none

/-- The text before the first comma and the text after it. -/
def cutComma? (cs : List Char) : Option (List Char × List Char) :=
  match cs.dropWhile (· ≠ ',') with
  | [] => none
  | _ :: rest => some (cs.takeWhile (· ≠ ','), rest)

/-- Reads a declaration: the start, a name, the name of a kind, and a value of that kind. -/
def ListedVariable.ofLine? (line : List Char) : Option ListedVariable := do
  let cs ← dropStart? "    %var\t@".toList line
  let (name, cs) ← cutComma? cs
  let (kind, value) ← cutComma? cs
  let name ← nameOfChars? name
  let kind ← Kind.ofName? (String.ofList kind)
  let value ← Value.ofChars? kind value
  return ⟨name, value⟩

/-! ## 2. Instruction lines -/

/-- Reads a label: the word, the number and the percent sign. -/
def Label.ofChars? (cs : List Char) : Option Label := do
  let cs ← dropStart? "label".toList cs
  if cs.getLast? = some '%' then Label.ofDigits? cs.dropLast else none

/-- Reads an operand: a name after its sign, or a label. -/
def ListedOperand.ofChars? : List Char → Option ListedOperand
  | '@' :: cs => (nameOfChars? cs).map .variableName
  | cs => (Label.ofChars? cs).map .address

/-- Reads the label that a line may start with, and the tab after it. -/
def cutLabel? : List Char → Option (Option Label × List Char)
  | '\t' :: cs => some (none, cs)
  | line => do
    let label ← Label.ofChars? (line.takeWhile (· ≠ ' '))
    let cs ← dropStart? " :\t".toList (line.dropWhile (· ≠ ' '))
    return (some label, cs)

/-- Reads the operands after a mnemonic: none, or a tab and fields. -/
def listedOperands? : List Char → Option (List ListedOperand)
  | [] => some []
  | '\t' :: cs => (Text.fields cs).mapM ListedOperand.ofChars?
  | _ => none

/-- Reads an instruction line whose operands have some shape, whether or not it is the opcode's. -/
def cutInstruction? (line : List Char) : Option (ListedInstruction × Shape) := do
  let (label, cs) ← cutLabel? line
  let opcode ← Opcode.ofMnemonic? (String.ofList (cs.takeWhile Char.isAlpha))
  let operands ← listedOperands? (cs.dropWhile Char.isAlpha)
  let shape ← listedShape? operands
  return (⟨label, opcode, operands⟩, shape)

/-! ## 3. Texts -/

namespace Listing

/-- The failure at a line. -/
def malformed (number : Nat) (line : List Char) : Error :=
  .malformedListing number (String.ofList line)

/-- The failure after the last line. -/
def unfinished (number : Nat) : Error := .malformedListing number "<end of text>"

/-- Reads the declaration on this line. -/
def readVariable (number : Nat) (line : List Char) : Except Error ListedVariable :=
  match ListedVariable.ofLine? line with
  | some v => .ok v
  | none => .error (malformed number line)

/-- Reads the instruction on this line.  Operands of another shape than the opcode's are an error
of their own. -/
def readInstruction (number : Nat) (line : List Char) : Except Error ListedInstruction :=
  match cutInstruction? line with
  | none => .error (malformed number line)
  | some (i, shape) =>
    if shape = i.opcode.shape then .ok i
    else .error
      (.shapeMismatch i.opcode.mnemonic i.opcode.shape.description shape.description)

/-- Reads instruction lines, the first of which has this number. -/
def readCode (number : Nat) : List (List Char) → Except Error (List ListedInstruction)
  | [] => .ok []
  | line :: rest =>
    if Text.isBlankLine line then readCode (number + 1) rest
    else do
      let i ← readInstruction number line
      let code ← readCode (number + 1) rest
      return i :: code

/-- Reads declaration lines up to the end marker, and the code after it. -/
def readVariables (number : Nat) : List (List Char) → Except Error Listing
  | [] => .error (unfinished number)
  | line :: rest =>
    if Text.isBlankLine line then readVariables (number + 1) rest
    else if line = endMarker.toList then
      (readCode (number + 1) rest).map fun code => ⟨[], code⟩
    else do
      let v ← readVariable number line
      let l ← readVariables (number + 1) rest
      return { l with declarations := v :: l.declarations }

/-- Reads lines from before the begin marker on. -/
def readLines (number : Nat) : List (List Char) → Except Error Listing
  | [] => .error (unfinished number)
  | line :: rest =>
    if Text.isBlankLine line then readLines (number + 1) rest
    else if line = beginMarker.toList then readVariables (number + 1) rest
    else .error (malformed number line)

/-- Reads a program text.  Lines are numbered from one. -/
def ofText (text : String) : Except Error Listing := readLines 1 (Text.lines text.toList)

end Listing
end ProcTree
