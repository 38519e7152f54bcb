/-
# What is read of a closed program declares its operands

A program is closed if every operand is the name of a declared variable (`Program.Closed`).  Names
are any strings, so the text of a closed program may read as something else: a name with a line
break in it makes lines of its own, and these may even be declarations.  Still no reading of the
text has an operand that it does not declare (`Program.Closed.declares`).

* A written line becomes one or more lines of the text (`Text.written`), and all that stands
  before the end marker must be read as declarations, because the marker is no instruction.
* The first of the lines that a declaration becomes has the name of a kind between commas.  If the
  name that is read there is not the name of the variable, then this kind stands in the name of the
  variable (`HasKindField`).
* An instruction that refers to such a variable is not read: the kind is a field of its first line
  too, and no operand reads like that.  So the operands of what is read are names of declarations
  that are read.
-/
import ProcTree.Proofs.Listing.RoundTrip

namespace ProcTree

open Text (Unbroken AfterField written)

/-! ## 1. Declaration lines of any names -/

/-- **A declaration** has its name and the name of a kind before commas. -/
theorem SpellsDeclaration.eq {line : List Char} {v : ListedVariable}
    (h : SpellsDeclaration line v) : ∃ (k : Kind) (value : List Char),
      line = "    %var\t@".toList ++ (v.name.toList ++ ',' :: (k.name.toList ++ ',' :: value)) := by
  obtain @⟨name, cs, value, -, -⟩ := h
  exact ⟨value.kind, cs, rfl⟩

/-- The name of a kind stands in the name, after a comma and up to a comma or the end. -/
def HasKindField (name : String) : Prop :=
  ∃ (cs r : List Char) (k : Kind), '\n' ∉ cs ∧ AfterField r ∧
    name.toList = cs ++ ',' :: (k.name.toList ++ r)

/-- Two ways to cut a text at a comma: at the same one, or the second cut is inside the first. -/
theorem append_comma_eq {p q r s : List Char} (hq : ',' ∉ q) (h : p ++ ',' :: r = q ++ ',' :: s) :
    p = q ∨ ∃ t, p = q ++ ',' :: t ∧ s = t ++ ',' :: r := by
  rcases List.append_eq_append_iff.mp h with ⟨t, rfl, ht⟩ | ⟨t, rfl, ht⟩
  · cases t with
    | nil => exact .inl (by simp)
    | cons c t =>
      obtain ⟨rfl, -⟩ := List.cons.inj ht
      exact absurd (by simp) hq
  · cases t with
    | nil => exact .inl (by simp)
    | cons c t =>
      obtain ⟨rfl, rfl⟩ := List.cons.inj ht
      exact .inr ⟨t, rfl, rfl⟩

namespace Variable

/-- A name that ends at another comma than the name that is read has the kind that is read. -/
theorem eq_or_hasKindField {name read : String} {k : Kind} {r value : List Char}
    (hread : WritableName read)
    (h : name.toList ++ ',' :: r = read.toList ++ ',' :: (k.name.toList ++ ',' :: value)) :
    read = name ∨ HasKindField name := by
  have hline : '\n' ∉ read.toList := hread.unbroken.feed_not_mem
  rcases append_comma_eq hread.comma_not_mem h with he | ⟨t, hname, ht⟩
  · exact .inl (String.toList_inj.mp he).symm
  · rcases append_comma_eq k.comma_not_mem_name ht.symm with rfl | ⟨t', rfl, -⟩
    · exact .inr ⟨read.toList, [], k, hline, by simp [AfterField], by rw [hname, List.append_nil]⟩
    · exact .inr ⟨read.toList, ',' :: t', k, hline, by simp [AfterField], hname⟩

/-- A declaration is one line if its name has no line feed. -/
theorem written_declaration {v : Variable} (h : '\n' ∉ v.name.toList) :
    written v.declaration.toList = [v.declaration.toList] := by
  have htail : Unbroken (v.kind.name.toList ++ ',' :: valueChars v.value) := by
    simp [v.kind.unbroken_name, unbroken_valueChars]
  have hchomp := Text.chomp_append_cons (c := ',') (by decide)
    ("    %var\t@".toList ++ v.name.toList) (v.kind.name.toList ++ ',' :: valueChars v.value)
  rw [Text.chomp_of_unbroken htail, List.append_assoc, ← v.declaration_toList] at hchomp
  have hfeed : '\n' ∉ v.declaration.toList := by
    rw [v.declaration_toList]
    simpa [h] using htail.feed_not_mem
  rw [Text.written_of_not_mem hfeed, hchomp]

/-- The first line of a declaration ends where its name has a line feed. -/
theorem mem_written_declaration {v : Variable} {cs r : List Char}
    (hname : v.name.toList = cs ++ '\n' :: r) (hcs : '\n' ∉ cs) :
    "    %var\t@".toList ++ Text.chomp cs ∈ written v.declaration.toList := by
  have hstart : "    %var\t@".toList = "    %var\t".toList ++ ['@'] := by decide
  have hline : v.declaration.toList = ("    %var\t".toList ++ '@' :: cs) ++
      '\n' :: (r ++ ',' :: (v.kind.name.toList ++ ',' :: valueChars v.value)) := by
    rw [v.declaration_toList, hname, hstart]
    simp
  rw [hline, Text.written_break (by simp [hcs]), Text.chomp_append_cons (by decide), hstart,
    List.append_assoc, List.singleton_append]
  exact List.mem_cons_self

/-- **The first line of a declaration** is read with the variable's name, or the name has a kind
in it. -/
theorem exists_written_declaration (v : Variable) : ∃ line ∈ written v.declaration.toList,
    "    %var\t@".toList <+: line ∧
      ∀ w, SpellsDeclaration line w → w.name = v.name ∨ HasKindField v.name := by
  by_cases hm : '\n' ∈ v.name.toList
  · obtain ⟨cs, r, hname, hcs⟩ := List.eq_append_cons_of_mem hm
    refine ⟨_, mem_written_declaration hname hcs, List.prefix_append _ _, fun w hw => ?_⟩
    obtain ⟨k, value, hline⟩ := hw.eq
    obtain ⟨s, hs⟩ := Text.chomp_prefix cs
    rw [List.append_cancel_left hline] at hs
    subst hs
    refine .inr ⟨w.name.toList, ',' :: (value ++ (s ++ '\n' :: r)), k, fun hn => hcs ?_, ?_, ?_⟩
    · exact List.mem_append_left _ (List.mem_append_left _ hn)
    · simp [AfterField]
    · simp [hname]
  · have hmem : v.declaration.toList ∈ written v.declaration.toList := by
      rw [written_declaration hm]
      exact List.mem_cons_self
    have hstart : "    %var\t@".toList <+: v.declaration.toList := by
      rw [v.declaration_toList]
      exact List.prefix_append _ _
    refine ⟨_, hmem, hstart, fun w hw => ?_⟩
    obtain ⟨k, value, hline⟩ := hw.eq
    rw [v.declaration_toList] at hline
    exact eq_or_hasKindField hw.writable (List.append_cancel_left hline)

end Variable

/-! ## 2. Instruction lines of any names -/

/-- The name of a kind is no operand. -/
theorem ListedOperand.ofChars?_kindName (k : Kind) :
    ListedOperand.ofChars? k.name.toList = none := by
  cases k <;> decide

/-- One that is not read is enough for nothing to be read. -/
theorem mapM_eq_none_of_mem {α β : Type} {read : α → Option β} {xs : List α} {x : α}
    (hx : x ∈ xs) (h : read x = none) : xs.mapM read = none := by
  induction xs with
  | nil => nomatch hx
  | cons y ys ih =>
    rw [List.mapM_cons]
    rcases List.mem_cons.mp hx with rfl | hx
    · rw [h]
      rfl
    · rw [ih hx]
      cases read y <;> rfl

namespace Instruction

/-- An operand on its line, if the names before it can be written. -/
theorem exists_operandChars {i : Instruction} {pre post : List Handle} {g : Handle}
    (hi : i.operands.handles = pre ++ g :: post) (hpre : ∀ h ∈ pre, WritableName h.name) :
    ∃ cs r, '\n' ∉ cs ∧ AfterField r ∧
      i.operandChars = '\t' :: (cs ++ ('@' :: g.name.toList ++ r)) := by
  have hfeed : ∀ f ∈ pre.map (fun h => '@' :: h.name.toList), '\n' ∉ f := by
    intro f hf
    obtain ⟨h, hh, rfl⟩ := List.mem_map.mp hf
    simp [(hpre h hh).unbroken.feed_not_mem]
  obtain ⟨cs, r, hcs, hr, hjoin⟩ := Text.joinFields_append_cons hfeed ('@' :: g.name.toList)
    (post.map (fun h => '@' :: h.name.toList) ++ i.operands.target?.toList.map Label.chars)
  have hfields : i.operands.fields = pre.map (fun h => '@' :: h.name.toList) ++
      ('@' :: g.name.toList) :: (post.map (fun h => '@' :: h.name.toList) ++
        i.operands.target?.toList.map Label.chars) := by
    simp [Operands.fields, hi]
  refine ⟨cs, r, hcs, hr, ?_⟩
  rw [← hjoin, ← hfields, operandChars]
  split
  · next he => simp [hfields] at he
  · rfl

/-- **An instruction that refers to a name with a kind in it is not read**, if the names before it
can be written. -/
theorem exists_written_unread {i : Instruction} {pre post : List Handle} {g : Handle}
    (hi : i.operands.handles = pre ++ g :: post) (hpre : ∀ h ∈ pre, WritableName h.name)
    (hg : HasKindField g.name) : ∃ line ∈ written i.chars,
      Text.isBlankLine line = false ∧ cutInstruction? line = none := by
  obtain ⟨w, s, k, hw, hs, hname⟩ := hg
  obtain ⟨cs, r, hcs, hr, hoperands⟩ := exists_operandChars hi hpre
  -- The line up to the comma before the kind, and how the reader cuts it.
  let start := labelChars i.label ++ (i.opcode.mnemonic.toList ++ '\t' :: (cs ++ '@' :: w))
  have hcut (t : List Char) : start ++ ',' :: (k.name.toList ++ t) = labelChars i.label ++
      (i.opcode.mnemonic.toList ++ '\t' :: ((cs ++ '@' :: w) ++ ',' :: (k.name.toList ++ t))) := by
    simp [start]
  have hchars : i.chars = start ++ ',' :: (k.name.toList ++ (s ++ r)) := by
    rw [hcut, chars_eq, hoperands, hname]
    simp
  have hstart : '\n' ∉ start := by
    simp [start, (unbroken_labelChars i.label).feed_not_mem,
      i.opcode.unbroken_mnemonic.feed_not_mem, hcs, hw]
  obtain ⟨t, ht, hline⟩ := Text.exists_written_field k.unbroken_name (hs.append hr) hstart
  rw [← hchars] at hline
  have hunread : listedOperands?
      ('\t' :: ((cs ++ '@' :: w) ++ ',' :: (k.name.toList ++ t))) = none :=
    mapM_eq_none_of_mem (Text.mem_fields k.comma_not_mem_name ht _)
      (ListedOperand.ofChars?_kindName k)
  refine ⟨_, hline, Text.isBlankLine_eq_false (c := '@') (by simp [start]) (by decide), ?_⟩
  rw [hcut, cutInstruction?_append i.label i.opcode (by simp), hunread, Option.bind_none]

end Instruction

/-! ## 3. Texts -/

namespace Listing

/-- The end marker is no instruction. -/
theorem not_spellsFitting_endMarker (i : ListedInstruction) :
    ¬SpellsFitting endMarker.toList i := by
  rw [SpellsFitting, ← cutInstruction?_eq_some_iff]
  have h : cutInstruction? endMarker.toList = none := by decide
  simp [h]

/-- All lines before an end marker are declarations: a marker among them would make an instruction
of this one. -/
theorem SpellsBody.of_append_endMarker {lines rest : List (List Char)} {l : Listing}
    (h : SpellsBody (lines ++ endMarker.toList :: rest) l) :
    List.Forall₂ SpellsDeclaration lines l.declarations ∧
      List.Forall₂ SpellsFitting rest l.code := by
  induction lines generalizing l with
  | nil =>
    rcases SpellsBody.cons_iff.mp h with ⟨-, hnone, hcode⟩ | ⟨v, _, hv, -⟩
    · exact ⟨hnone ▸ .nil, hcode⟩
    · exact absurd hv (not_spellsDeclaration_endMarker v)
  | cons line lines ih =>
    rcases SpellsBody.cons_iff.mp h with ⟨-, -, hcode⟩ | ⟨v, vs, hv, hvs, hbody⟩
    · obtain ⟨i, -, hi⟩ := exists_right_of_forall₂ hcode _
        (List.mem_append_right lines List.mem_cons_self)
      exact absurd hi (not_spellsFitting_endMarker i)
    · obtain ⟨hds, hcode⟩ := ih hbody
      exact ⟨hvs ▸ .cons hv hds, hcode⟩

end Listing

namespace Program

/-- Every operand is the name of a declared variable. -/
def Closed (p : Program) : Prop :=
  ∀ i ∈ p.code, ∀ g ∈ i.operands.handles, g.name ∈ p.declarations.map Variable.name

instance (p : Program) : Decidable p.Closed :=
  inferInstanceAs (Decidable (∀ i ∈ p.code, ∀ g ∈ i.operands.handles,
    g.name ∈ p.declarations.map Variable.name))

theorem lines_text_written (p : Program) : Text.lines p.text.toList =
    beginMarker.toList :: (p.declarations.flatMap (fun v => written v.declaration.toList) ++
      endMarker.toList :: p.code.flatMap fun i => written i.chars) := by
  have hbegin : written beginMarker.toList = [beginMarker.toList] := by decide
  have hend : written endMarker.toList = [endMarker.toList] := by decide
  rw [text, Text.lines_unlines_written, lines, declarationLines]
  simp [List.flatMap_map, Instruction.text, hbegin, hend]

variable {p : Program} {l : Listing}

/-- What is read of a program: its declarations' lines, and its instructions' lines. -/
theorem reads_of_ofText (h : Listing.ofText p.text = .ok l) :
    List.Forall₂ SpellsDeclaration
        (Listing.inked (p.declarations.flatMap fun v => written v.declaration.toList))
        l.declarations ∧
      List.Forall₂ Listing.SpellsFitting
        (Listing.inked (p.code.flatMap fun i => written i.chars)) l.code := by
  have hbegin : ¬Text.isBlankLine beginMarker.toList = true := by decide
  have hend : ¬Text.isBlankLine endMarker.toList = true := by decide
  have hspells := Listing.ofText_eq_ok_iff.mp h
  rw [lines_text_written, Listing.inked_cons_of_not_blank hbegin, Listing.inked_append,
    Listing.inked_cons_of_not_blank hend] at hspells
  exact (Listing.SpellsListing.cons_iff.mp hspells).2.of_append_endMarker

/-- A declared name is read, or has a kind in it. -/
theorem declared_or_hasKindField (h : Listing.ofText p.text = .ok l) {name : String}
    (hname : name ∈ p.declarations.map Variable.name) :
    (name ∈ l.names ∧ WritableName name) ∨ HasKindField name := by
  obtain ⟨v, hv, rfl⟩ := List.mem_map.mp hname
  obtain ⟨line, hline, hstart, hread⟩ := v.exists_written_declaration
  have hblank : Text.isBlankLine line = false :=
    Text.isBlankLine_eq_false (c := '%') (hstart.subset (by decide)) (by decide)
  have hinked : line ∈ Listing.inked
      (p.declarations.flatMap fun v => written v.declaration.toList) :=
    List.mem_filter.mpr ⟨List.mem_flatMap.mpr ⟨v, hv, hline⟩, by simp [hblank]⟩
  obtain ⟨w, hw, hspells⟩ := exists_right_of_forall₂ (reads_of_ofText h).1 line hinked
  rcases hread w hspells with he | hkind
  · exact .inl ⟨he ▸ List.mem_map_of_mem hw, he ▸ hspells.writable⟩
  · exact .inr hkind

/-- The operands of a closed program that is read can be written. -/
theorem Closed.writable (hp : p.Closed) (h : Listing.ofText p.text = .ok l) {i : Instruction}
    (hi : i ∈ p.code) : i.operands.Writable := by
  cases hf : i.operands.handles.find? fun g => !decide (WritableName g.name) with
  | none => exact fun g hg => by simpa using List.find?_eq_none.mp hf g hg
  | some g =>
    -- The first operand that cannot be written has a kind in its name.
    obtain ⟨hg, pre, post, hsplit, hpre⟩ := List.find?_eq_some_iff_append.mp hf
    have hunwritable : ¬WritableName g.name := by simpa using hg
    have hmem : g ∈ i.operands.handles := hsplit ▸ List.mem_append_right pre List.mem_cons_self
    have hkind : HasKindField g.name := by
      rcases declared_or_hasKindField h (hp i hi g hmem) with ⟨-, hw⟩ | hk
      · exact absurd hw hunwritable
      · exact hk
    obtain ⟨line, hline, hblank, hnone⟩ := Instruction.exists_written_unread hsplit
      (fun h hh => by simpa using hpre h hh) hkind
    have hinked : line ∈ Listing.inked (p.code.flatMap fun i => written i.chars) :=
      List.mem_filter.mpr ⟨List.mem_flatMap.mpr ⟨i, hi, hline⟩, by simp [hblank]⟩
    obtain ⟨j, -, hspells⟩ := exists_right_of_forall₂ (reads_of_ofText h).2 line hinked
    have hcut := cutInstruction?_eq_some_iff.mpr hspells
    rw [hnone] at hcut
    cases hcut

/-- **What is read of a closed program declares its operands**, whatever the names are. -/
theorem Closed.declares (hp : p.Closed) (h : Listing.ofText p.text = .ok l) :
    ∀ name ∈ l.operandNames, name ∈ l.names := by
  intro name hname
  obtain ⟨j, hj, hnamej⟩ := List.mem_flatMap.mp hname
  obtain ⟨line, hline, hspells⟩ := exists_left_of_forall₂ (reads_of_ofText h).2 j hj
  have hcut := cutInstruction?_eq_some_iff.mpr hspells
  obtain ⟨i, hi, hline⟩ := List.mem_flatMap.mp (List.mem_filter.mp hline).1
  have hw := hp.writable h hi
  rw [Text.written_of_unbroken (Instruction.unbroken_chars hw), List.mem_singleton] at hline
  rw [hline, Instruction.cutInstruction?_chars hw] at hcut
  cases hcut
  replace hnamej : name ∈ i.listed.names := hnamej
  rw [i.names_listed] at hnamej
  obtain ⟨g, hg, rfl⟩ := List.mem_map.mp hnamej
  rcases declared_or_hasKindField h (hp i hi g hg) with ⟨hmem, -⟩ | ⟨w, r, k, -, -, he⟩
  · exact hmem
  · exact absurd (by simp [he]) (hw g hg).comma_not_mem

end Program
end ProcTree
