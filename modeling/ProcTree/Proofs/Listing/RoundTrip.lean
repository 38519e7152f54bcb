/-
# Program text is read back

The text of a program is read back as the program's listing exactly when all its names can be
written (`Program.ofText_text_iff`).

* If they can, every line spells what it was written for, and none is blank.
* If some name cannot be written, no reading gives it: whatever a text is read as, its names are
  writable (`Listing.writable_of_ofText`).
-/
import ProcTree.Proofs.Listing.Grammar

namespace ProcTree

/-! ## 1. Names of what is read -/

theorem SpellsDeclaration.writable {line : List Char} {v : ListedVariable}
    (h : SpellsDeclaration line v) : WritableName v.name := by
  obtain @⟨_, _, _, hname, -⟩ := h
  exact hname

/-- An operand is a label or a writable name. -/
theorem SpellsOperand.writable {cs : List Char} {o : ListedOperand} (h : SpellsOperand cs o) :
    ∀ name ∈ o.name?, WritableName name := by
  cases h with
  | variableName h =>
    rintro name ⟨⟩
    exact h
  | address _ => rintro name ⟨⟩

theorem SpellsOperands.writable {cs : List Char} {os : List ListedOperand}
    (h : SpellsOperands cs os) : ∀ o ∈ os, ∀ name ∈ o.name?, WritableName name := by
  cases h with
  | nil => exact fun o ho => nomatch ho
  | list _ h =>
    intro o ho
    obtain ⟨_, -, hspells⟩ := exists_left_of_forall₂ h o ho
    exact hspells.writable

/-- The names of the operands of an instruction line. -/
def ListedInstruction.names (i : ListedInstruction) : List String :=
  i.operands.filterMap ListedOperand.name?

/-- The names of an instruction as the text has it are those of its variables. -/
theorem Instruction.names_listed (i : Instruction) :
    i.listed.names = i.operands.handles.map Handle.name := by
  obtain ⟨op, o, label, fits⟩ := i
  cases o <;> rfl

theorem SpellsInstruction.writable {line : List Char} {i : ListedInstruction}
    (h : SpellsInstruction line i) : ∀ name ∈ i.names, WritableName name := by
  obtain @⟨_, _, _, _, _, -, hrest⟩ := h
  intro name hname
  obtain ⟨o, ho, hn⟩ := List.mem_filterMap.mp hname
  exact hrest.writable o ho name hn

namespace Listing

/-- Every name of the listing can be written. -/
structure Writable (l : Listing) : Prop where
  declarations : ∀ v ∈ l.declarations, WritableName v.name
  code : ∀ i ∈ l.code, ∀ name ∈ i.names, WritableName name

theorem SpellsListing.writable {ls : List (List Char)} {l : Listing} (h : SpellsListing ls l) :
    l.Writable := by
  obtain ⟨⟨hds, his⟩⟩ := h
  constructor
  · intro v hv
    obtain ⟨_, -, hspells⟩ := exists_left_of_forall₂ hds v hv
    exact hspells.writable
  · intro i hi
    obtain ⟨_, -, hspells⟩ := exists_left_of_forall₂ his i hi
    exact hspells.1.writable

/-- **Whatever a text is read as, its names can be written.** -/
theorem writable_of_ofText {text : String} {l : Listing} (h : ofText text = .ok l) :
    l.Writable := (ofText_eq_ok_iff.mp h).writable

end Listing

/-! ## 2. Lines that are written -/

/-- Texts that are written one by one. -/
theorem forall₂_map {α β γ : Type} {R : β → γ → Prop} {write : α → β} {listed : α → γ} {xs : List α}
    (h : ∀ x ∈ xs, R (write x) (listed x)) :
    List.Forall₂ R (xs.map write) (xs.map listed) := by
  rw [List.forall₂_map_left_iff, List.forall₂_map_right_iff]
  exact List.forall₂_same.mpr h

theorem Variable.spellsDeclaration {v : Variable} (hv : v.WellKinded) (hn : WritableName v.name)
    (hreal : ∀ x, v.value = .real x → real? (realChars x) = some x) :
    SpellsDeclaration v.declaration.toList v.listed :=
  ListedVariable.ofLine?_eq_some_iff.mp (ListedVariable.ofLine?_declaration hv hn hreal)

theorem Variable.isBlankLine_declaration (v : Variable) :
    Text.isBlankLine v.declaration.toList = false :=
  Text.isBlankLine_eq_false (c := '%') (by simp [v.declaration_toList]) (by decide)

theorem Instruction.spellsFitting {i : Instruction} (h : i.operands.Writable) :
    Listing.SpellsFitting i.chars i.listed :=
  cutInstruction?_eq_some_iff.mp (cutInstruction?_chars h)

/-! ## 3. Programs -/

namespace Program

/-- The names in a program: those of declared variables and those of operands. -/
def names (p : Program) : List String :=
  p.declarations.map Variable.name ++
    p.code.flatMap fun i => i.operands.handles.map Handle.name

/-- What the text of a program says. -/
def listing (p : Program) : Listing :=
  ⟨p.declarations.map Variable.listed, p.code.map Instruction.listed⟩

/-- The names are writable declaration by declaration and instruction by instruction. -/
theorem writable_names_iff {p : Program} :
    (∀ name ∈ p.names, WritableName name) ↔
      (∀ v ∈ p.declarations, WritableName v.name) ∧ ∀ i ∈ p.code, i.operands.Writable := by
  constructor
  · intro h
    constructor
    · exact fun v hv => h v.name (List.mem_append_left _ (List.mem_map_of_mem hv))
    · intro i hi g hg
      exact h g.name
        (List.mem_append_right _ (List.mem_flatMap.mpr ⟨i, hi, List.mem_map_of_mem hg⟩))
  · rintro ⟨hvars, hcode⟩ name hname
    rcases List.mem_append.mp hname with hname | hname
    · obtain ⟨v, hv, rfl⟩ := List.mem_map.mp hname
      exact hvars v hv
    · obtain ⟨i, hi, hn⟩ := List.mem_flatMap.mp hname
      obtain ⟨g, hg, rfl⟩ := List.mem_map.mp hn
      exact hcode i hi g hg

/-- If the listing has only writable names, so has the program. -/
theorem writable_of_listing {p : Program} (h : p.listing.Writable) :
    ∀ name ∈ p.names, WritableName name := by
  refine writable_names_iff.mpr ⟨fun v hv => ?_, fun i hi g hg => ?_⟩
  · exact h.declarations v.listed (List.mem_map_of_mem hv)
  · have hnames : g.name ∈ i.listed.names := i.names_listed ▸ List.mem_map_of_mem hg
    exact h.code i.listed (List.mem_map_of_mem hi) g.name hnames

/-- The lines of the text are those that were written. -/
theorem lines_text {p : Program} (h : ∀ name ∈ p.names, WritableName name) :
    Text.lines p.text.toList = beginMarker.toList ::
      (p.declarations.map (fun v => v.declaration.toList) ++ endMarker.toList ::
        p.code.map Instruction.chars) := by
  obtain ⟨hvars, hcode⟩ := writable_names_iff.mp h
  have unbroken : ∀ line ∈ p.lines, Text.Unbroken line.toList := by
    intro line hline
    simp only [lines, declarationLines, List.cons_append, List.append_assoc, List.mem_cons,
      List.mem_append, List.mem_map, List.nil_append] at hline
    rcases hline with rfl | ⟨v, hv, rfl⟩ | rfl | ⟨i, hi, rfl⟩
    · simp [beginMarker]
    · exact Variable.unbroken_declaration (hvars v hv)
    · simp [endMarker]
    · rw [Instruction.text, String.toList_ofList]
      exact Instruction.unbroken_chars (hcode i hi)
  rw [text, Text.lines_unlines unbroken]
  simp [lines, declarationLines, Instruction.text, Function.comp_def]

/-- No line of the text is blank. -/
theorem inked_lines_text {p : Program} (h : ∀ name ∈ p.names, WritableName name) :
    Listing.inked (Text.lines p.text.toList) = beginMarker.toList ::
      (p.declarations.map (fun v => v.declaration.toList) ++ endMarker.toList ::
        p.code.map Instruction.chars) := by
  have hinked : ∀ line ∈ Text.lines p.text.toList, Text.isBlankLine line = false := by
    intro line hline
    rw [lines_text h] at hline
    simp only [List.mem_cons, List.mem_append, List.mem_map] at hline
    rcases hline with rfl | ⟨v, -, rfl⟩ | rfl | ⟨i, -, rfl⟩
    · decide
    · exact v.isBlankLine_declaration
    · decide
    · exact i.isBlankLine_chars
  rw [Listing.inked_eq_self hinked, lines_text h]

/-- The text of a program is read as its instructions, and as what its declarations are read as. -/
theorem ofText_text_of_spells {p : Program} (h : ∀ name ∈ p.names, WritableName name)
    {read : Variable → ListedVariable}
    (hread : ∀ v ∈ p.declarations, SpellsDeclaration v.declaration.toList (read v)) :
    Listing.ofText p.text = .ok ⟨p.declarations.map read, p.code.map Instruction.listed⟩ := by
  obtain ⟨-, hcode⟩ := writable_names_iff.mp h
  rw [Listing.ofText_eq_ok_iff, inked_lines_text h]
  refine .mk (.mk ?_ ?_)
  · exact forall₂_map hread
  · exact forall₂_map fun i hi => i.spellsFitting (hcode i hi)

/-- A program is read back if its names can be written. -/
theorem ofText_text {p : Program} (hkinds : ∀ v ∈ p.declarations, v.WellKinded)
    (hreal : ∀ v ∈ p.declarations, ∀ x, v.value = .real x → real? (realChars x) = some x)
    (h : ∀ name ∈ p.names, WritableName name) : Listing.ofText p.text = .ok p.listing := by
  obtain ⟨hvars, -⟩ := writable_names_iff.mp h
  exact ofText_text_of_spells h fun v hv =>
    v.spellsDeclaration (hkinds v hv) (hvars v hv) (hreal v hv)

/-- **The text of a program is read back exactly when its names can be written.**  Nothing is asked
of the values but that the declared reals are read back, and nothing of the labels. -/
theorem ofText_text_iff (p : Program) (hkinds : ∀ v ∈ p.declarations, v.WellKinded)
    (hreal : ∀ v ∈ p.declarations, ∀ x, v.value = .real x → real? (realChars x) = some x) :
    Listing.ofText p.text = .ok p.listing ↔ ∀ name ∈ p.names, WritableName name := by
  constructor
  · exact fun h => writable_of_listing (Listing.writable_of_ofText h)
  · exact fun h => ofText_text hkinds hreal h

/-- The theorem at work on names that look like labels and operands, on a string that holds a
marker and every escape, and on NaN; and on the same program with a blank in a name. -/
theorem ofText_text_iff_markers :
    let p : Program := ⟨[⟨"label7%", .string, .string "\r\n  %endVarDecl\n\t\"a\",\\"⟩,
        ⟨"@x", .real, .real (-2.5)⟩, ⟨"%var", .real, .real (0 / 0)⟩],
      [⟨.copyOther, .two ⟨"label7%", .string⟩ ⟨"label7%", .string⟩, some ⟨7⟩, rfl⟩,
        ⟨.gotoIf, .oneTarget ⟨"@undeclared", .boolean⟩ ⟨7⟩, none, rfl⟩]⟩
    let blank : Program := ⟨⟨"two words", .integer, .integer 2⟩ :: p.declarations, p.code⟩
    Listing.ofText p.text = .ok p.listing ∧ Listing.ofText blank.text ≠ .ok blank.listing := by
  intro p blank
  have hkinds : ∀ v ∈ blank.declarations, v.WellKinded := by decide
  have hreal : ∀ v ∈ blank.declarations, ∀ x, v.value = .real x →
      real? (realChars x) = some x := by
    have hreads : ∀ v ∈ blank.declarations, Value.ofChars? v.kind (Variable.valueChars v.value) =
        some v.value := by decide +kernel
    intro v hv x hx
    have h := hreads v hv
    have hk : v.kind = .real := by rw [← hkinds v hv, hx, Value.kind]
    rw [hx, hk] at h
    simpa [Value.ofChars?, Variable.valueChars, Value.text, realText] using h
  have hp : ∀ v ∈ p.declarations, v ∈ blank.declarations :=
    fun v hv => List.mem_cons_of_mem _ hv
  constructor
  · refine (ofText_text_iff p (fun v hv => hkinds v (hp v hv))
      fun v hv => hreal v (hp v hv)).mpr ?_
    decide +kernel
  · intro h
    have hnames := (ofText_text_iff blank hkinds hreal).mp h
    exact absurd (hnames "two words" List.mem_cons_self) (by decide +kernel)

end Program
end ProcTree
