/-
# Which texts are read, and what is wrong with the others

A text falls into lines in one way (`Text.splits_iff`), and it is read if the lines that are not
blank are those of a listing.  Other texts have a fault.

* Lines are `Viable` if they can be continued to those of a listing.  A text that is not read either
  stops too early, or it has a first line after which no continuation helps; this line is what the
  error is about (`Fault`).
* What may follow does not depend on which declarations and instructions were read
  (`SpellsBody.append_iff`), so each of the three functions that read lines stops at the first line
  that leaves the grammar.
* `Listing.ofText_decides_grammar` puts both together for texts.
-/
import ProcTree.Proofs.Listing.Grammar

namespace ProcTree

/-! ## 1. Lines of a text -/

namespace Text

/-- The lines of a text.  A line ends at a line feed, with one carriage return before it if there is
one; what is left after the last line feed is a line too, if it is not empty. -/
inductive Splits : List Char → List (List Char) → Prop
  | nil : Splits [] []
  | last {cs : List Char} (h : '\n' ∉ cs) (hne : cs ≠ []) : Splits cs [cs]
  | line {cs r : List Char} {ls : List (List Char)} (h : '\n' ∉ cs) (hr : Splits r ls) :
    Splits (cs ++ '\n' :: r) (chomp cs :: ls)

/-- What is left after the last line feed keeps its carriage returns. -/
theorem lines_last {cs : List Char} (h : '\n' ∉ cs) (hne : cs ≠ []) : lines cs = [cs] := by
  induction cs with
  | nil => exact absurd rfl hne
  | cons c t ih =>
    rw [List.mem_cons, not_or] at h
    cases t with
    | nil => simp [lines, Ne.symm h.1]
    | cons d t =>
      rw [lines, ih h.2 (List.cons_ne_nil d t)]
      · exact fun e => h.1 e.symm
      · rintro r - e
        obtain ⟨rfl, -⟩ := List.cons.inj e
        exact h.2 List.mem_cons_self

theorem splits_iff {cs : List Char} {ls : List (List Char)} : Splits cs ls ↔ lines cs = ls := by
  constructor
  · intro h
    induction h with
    | nil => rfl
    | last h hne => exact lines_last h hne
    | line h _ ih => rw [lines_break h, ih]
  · rintro rfl
    induction cs using split_induction '\n' with
    | whole cs h =>
      by_cases hne : cs = []
      · exact hne ▸ .nil
      · exact lines_last h hne ▸ .last h hne
    | split cs r h ih => exact lines_break h r ▸ .line h ih

end Text

/-! ## 2. Viable lines -/

namespace Listing

/-- The lines can be continued to those of a listing. -/
def Viable (ls : List (List Char)) : Prop := ∃ more l, SpellsListing (ls ++ more) l

/-- What may follow declarations is what may follow the begin marker. -/
theorem SpellsBody.append_iff {ds ls : List (List Char)} {vs : List ListedVariable}
    (h : List.Forall₂ SpellsDeclaration ds vs) :
    (∃ l, SpellsBody (ds ++ ls) l) ↔ ∃ l, SpellsBody ls l := by
  induction h with
  | nil => rfl
  | cons hv _ ih =>
    rw [← ih]
    constructor
    · rintro ⟨l, h⟩
      rcases SpellsBody.cons_iff.mp h with ⟨rfl, -⟩ | ⟨_, _, -, -, hbody⟩
      · exact absurd hv (not_spellsDeclaration_endMarker _)
      · exact ⟨_, hbody⟩
    · rintro ⟨l, h⟩
      exact ⟨⟨_ :: l.declarations, l.code⟩, SpellsBody.cons_iff.mpr (.inr ⟨_, _, hv, rfl, h⟩)⟩

/-- Only instructions follow the end marker. -/
theorem SpellsBody.endMarker_iff {ls : List (List Char)} :
    (∃ l, SpellsBody (endMarker.toList :: ls) l) ↔ ∃ code, List.Forall₂ SpellsFitting ls code := by
  constructor
  · rintro ⟨l, h⟩
    rcases SpellsBody.cons_iff.mp h with ⟨-, -, hcode⟩ | ⟨v, _, hv, -⟩
    · exact ⟨_, hcode⟩
    · exact absurd hv (not_spellsDeclaration_endMarker v)
  · rintro ⟨code, h⟩
    exact ⟨⟨[], code⟩, SpellsBody.cons_iff.mpr (.inl ⟨rfl, rfl, h⟩)⟩

theorem Viable.of_append {ls more : List (List Char)} (h : Viable (ls ++ more)) : Viable ls := by
  obtain ⟨rest, l, h⟩ := h
  exact ⟨more ++ rest, l, by rwa [← List.append_assoc]⟩

theorem viable_of_spells {ls : List (List Char)} {l : Listing} (h : SpellsListing ls l) :
    Viable ls := ⟨[], l, by rwa [List.append_nil]⟩

/-- After the begin marker. -/
theorem viable_cons_iff {line : List Char} {ls : List (List Char)} :
    Viable (line :: ls) ↔ line = beginMarker.toList ∧ ∃ more l, SpellsBody (ls ++ more) l := by
  constructor
  · rintro ⟨more, l, h⟩
    obtain ⟨hline, hbody⟩ := SpellsListing.cons_iff.mp h
    exact ⟨hline, more, l, hbody⟩
  · rintro ⟨rfl, more, l, h⟩
    exact ⟨more, l, .mk h⟩

theorem forall₂_concat {α β : Type} {R : α → β → Prop} {xs : List α} {ys : List β}
    (h : List.Forall₂ R xs ys) {x : α} {y : β} (hxy : R x y) :
    List.Forall₂ R (xs ++ [x]) (ys ++ [y]) := List.rel_append h (.cons hxy .nil)

section

variable {ds is : List (List Char)} {vs : List ListedVariable} {code : List ListedInstruction}

theorem viable_declarations (hds : List.Forall₂ SpellsDeclaration ds vs) :
    Viable (beginMarker.toList :: ds) := ⟨[endMarker.toList], ⟨vs, []⟩, .mk (.mk hds .nil)⟩

theorem viable_nil : Viable [] :=
  @Viable.of_append [] [beginMarker.toList] (viable_declarations .nil)

theorem viable_singleton_iff {line : List Char} : Viable [line] ↔ line = beginMarker.toList := by
  constructor
  · exact fun h => (viable_cons_iff.mp h).1
  · rintro rfl
    exact viable_declarations .nil

/-- A line that may follow declarations. -/
theorem viable_declarations_concat_iff (hds : List.Forall₂ SpellsDeclaration ds vs)
    (line : List Char) :
    Viable (beginMarker.toList :: (ds ++ [line])) ↔
      line = endMarker.toList ∨ ∃ v, SpellsDeclaration line v := by
  constructor
  · intro h
    obtain ⟨-, more, l, hbody⟩ := viable_cons_iff.mp h
    rw [List.append_assoc] at hbody
    obtain ⟨l', hline⟩ := (SpellsBody.append_iff hds).mp ⟨l, hbody⟩
    rcases SpellsBody.cons_iff.mp hline with ⟨he, -⟩ | ⟨v, _, hv, -⟩
    · exact .inl he
    · exact .inr ⟨v, hv⟩
  · rintro (rfl | ⟨v, hv⟩)
    · exact viable_of_spells (l := ⟨vs, []⟩) (.mk (.mk hds .nil))
    · exact viable_declarations (forall₂_concat hds hv)

/-- A line that may follow instructions. -/
theorem viable_code_concat_iff (hds : List.Forall₂ SpellsDeclaration ds vs)
    (his : List.Forall₂ SpellsFitting is code) (line : List Char) :
    Viable (beginMarker.toList :: (ds ++ endMarker.toList :: (is ++ [line]))) ↔
      ∃ i, SpellsFitting line i := by
  constructor
  · intro h
    obtain ⟨-, more, l, hbody⟩ := viable_cons_iff.mp h
    rw [List.append_assoc, List.cons_append, List.append_assoc] at hbody
    obtain ⟨code', hcode⟩ := SpellsBody.endMarker_iff.mp ((SpellsBody.append_iff hds).mp ⟨l, hbody⟩)
    obtain ⟨i, -, hi⟩ := exists_right_of_forall₂ hcode line
      (List.mem_append_right is List.mem_cons_self)
    exact ⟨i, hi⟩
  · rintro ⟨i, hi⟩
    exact viable_of_spells (l := ⟨vs, code ++ [i]⟩) (.mk (.mk hds (forall₂_concat his hi)))

end

/-! ## 3. Faults -/

/-- What is said about a line that cannot stand after these lines: the operands of an instruction
that have a shape, though not the right one, are blamed for it, and any other line is malformed. -/
inductive Blamed (seen : List (List Char)) (number : Nat) (line : List Char) : Error → Prop
  | shape {i : ListedInstruction} {s : Shape} (hplace : endMarker.toList ∈ seen)
    (h : SpellsInstruction line i) (hs : HasShape i.operands s) : Blamed seen number line
      (.shapeMismatch i.opcode.mnemonic i.opcode.shape.description s.description)
  | malformed (h : ¬(endMarker.toList ∈ seen ∧ ∃ i s, SpellsInstruction line i ∧
      HasShape i.operands s)) : Blamed seen number line (malformed number line)

/-- What is wrong with lines, the first of which has this number, after the lines `seen`.  Either
some line is the first after which they are not viable; or they are viable to the end and no listing. -/
inductive Fault (seen : List (List Char)) (number : Nat) : List (List Char) → Error → Prop
  | line (before : List (List Char)) {after : List (List Char)} {line : List Char} {e : Error}
    (hblank : Text.isBlankLine line = false) (hbefore : Viable (seen ++ inked before))
    (hline : ¬Viable (seen ++ inked before ++ [line]))
    (he : Blamed (seen ++ inked before) (number + before.length) line e) :
    Fault seen number (before ++ line :: after) e
  | ending (lines : List (List Char)) (hviable : Viable (seen ++ inked lines))
    (hlisting : ¬∃ l, SpellsListing (seen ++ inked lines) l) :
    Fault seen number lines (unfinished (number + lines.length))

section

variable {seen rest lines : List (List Char)} {number : Nat} {line : List Char} {e : Error}

/-- Without lines, only the end can be wrong. -/
theorem Fault.nil_iff : Fault seen number [] e ↔
    Viable seen ∧ (¬∃ l, SpellsListing seen l) ∧ e = unfinished number := by
  have hseen : seen ++ inked [] = seen := List.append_nil seen
  constructor
  · intro h
    generalize hls : [] = all at h
    cases h with
    | line _ => simp at hls
    | ending _ hviable hlisting =>
      subst hls
      rw [hseen] at hviable hlisting
      exact ⟨hviable, hlisting, rfl⟩
  · rintro ⟨hviable, hlisting, rfl⟩
    exact .ending [] (hseen.symm ▸ hviable) (hseen.symm ▸ hlisting)

/-- A fault at this line, in the lines after it or at their end. -/
theorem Fault.cons_iff : Fault seen number (line :: rest) e ↔
    (Text.isBlankLine line = false ∧ Viable seen ∧ ¬Viable (seen ++ [line]) ∧
        Blamed seen number line e) ∨
      Fault (seen ++ inked [line]) (number + 1) rest e := by
  have hseen : seen ++ inked [] = seen := List.append_nil seen
  have hcons : ∀ ls, inked (line :: ls) = inked [line] ++ inked ls := fun ls =>
    List.filter_append [line] ls
  have hcount : ∀ n, number + 1 + n = number + (n + 1) := by omega
  constructor
  · intro h
    generalize hls : line :: rest = all at h
    cases h with
    | @line before after _ _ hblank hbefore hline he =>
      cases before with
      | nil =>
        obtain ⟨rfl, rfl⟩ := List.cons.inj hls
        rw [hseen] at hbefore hline he
        exact .inl ⟨hblank, hbefore, hline, he⟩
      | cons _ before =>
        obtain ⟨rfl, rfl⟩ := List.cons.inj hls
        rw [hcons, ← List.append_assoc] at hbefore hline he
        rw [List.length_cons, ← hcount] at he
        exact .inr (.line before hblank hbefore hline he)
    | ending _ hviable hlisting =>
      subst hls
      rw [hcons, ← List.append_assoc] at hviable hlisting
      rw [List.length_cons, ← hcount]
      exact .inr (.ending rest hviable hlisting)
  · rintro (⟨hblank, hbefore, hline, he⟩ | h)
    · refine .line [] hblank ?_ ?_ ?_
      · rwa [hseen]
      · rwa [hseen]
      · rwa [hseen]
    · cases h with
      | @line before after _ _ hblank hbefore hline he =>
        refine .line (line :: before) hblank ?_ ?_ ?_
        · rwa [hcons, ← List.append_assoc]
        · rwa [hcons, ← List.append_assoc]
        · rwa [hcons, ← List.append_assoc, List.length_cons, ← hcount]
      | ending _ hviable hlisting =>
        rw [hcount]
        refine .ending (line :: rest) ?_ ?_
        · rwa [hcons, ← List.append_assoc]
        · rwa [hcons, ← List.append_assoc]

theorem Fault.viable (h : Fault seen number lines e) : Viable seen := by
  cases h with
  | line _ _ hbefore => exact hbefore.of_append
  | ending _ hviable => exact hviable.of_append

/-- A blank line only counts. -/
theorem fault_blank_iff (hblank : Text.isBlankLine line = true) :
    Fault seen number (line :: rest) e ↔ Fault seen (number + 1) rest e := by
  rw [Fault.cons_iff, inked_cons_of_blank hblank, hblank]
  simp [inked]

/-- A line that may stand here is no fault. -/
theorem fault_next_iff (hblank : ¬Text.isBlankLine line = true) (h : Viable (seen ++ [line])) :
    Fault seen number (line :: rest) e ↔ Fault (seen ++ [line]) (number + 1) rest e := by
  rw [Fault.cons_iff, inked_cons_of_not_blank hblank]
  simp [h, inked]

/-- A line that may not stand here is the fault. -/
theorem fault_stop_iff (hblank : ¬Text.isBlankLine line = true) (hseen : Viable seen)
    (h : ¬Viable (seen ++ [line])) :
    Fault seen number (line :: rest) e ↔ Blamed seen number line e := by
  have hrest : ¬Fault (seen ++ [line]) (number + 1) rest e := fun hf => h hf.viable
  rw [Fault.cons_iff, inked_cons_of_not_blank hblank]
  simp [h, hseen, hrest, inked, Bool.eq_false_iff.mpr hblank]

end

/-! ## 4. Reading -/

theorem readMap_eq_error_iff {α β : Type} {x : Except Error α} {f : α → β} {e : Error} :
    (x >>= fun a => pure (f a)) = .error e ↔ x = .error e := by
  cases x <;> simp [bind, Except.bind, pure, Except.pure]

theorem readEnd_eq_error_iff {x : Except Error (List ListedInstruction)} {e : Error} :
    (x.map fun code => (⟨[], code⟩ : Listing)) = .error e ↔ x = .error e := by
  cases x <;> simp [Except.map]

/-- One reading after another fails when the first does, or the second after it. -/
theorem readBind_eq_error_iff {α β : Type} {x : Except Error α} {f : α → Except Error β}
    {e : Error} : (x >>= f) = .error e ↔ x = .error e ∨ ∃ a, x = .ok a ∧ f a = .error e := by
  cases x <;> simp [bind, Except.bind]

section

variable {seen lines ds is : List (List Char)} {number : Nat} {line : List Char} {e : Error}
variable {vs : List ListedVariable} {code : List ListedInstruction}

theorem readVariable_eq_error_iff (hline : ¬∃ v, SpellsDeclaration line v) :
    readVariable number line = .error e ↔ e = malformed number line := by
  unfold readVariable
  split
  · next v h => exact absurd ⟨v, ListedVariable.ofLine?_eq_some_iff.mp h⟩ hline
  · exact ⟨fun h => (Except.error.inj h).symm, congrArg _ ∘ Eq.symm⟩

/-- Before the end marker, a line that may not stand is malformed. -/
theorem blamed_iff_of_not_mem (hplace : endMarker.toList ∉ seen) :
    Blamed seen number line e ↔ e = malformed number line := by
  constructor
  · rintro (⟨hmem, -, -⟩ | -)
    · exact absurd hmem hplace
    · rfl
  · rintro rfl
    exact .malformed fun h => hplace h.1

/-- After the end marker, the error of the reader is the one that the line is blamed for. -/
theorem readInstruction_eq_error_iff (hplace : endMarker.toList ∈ seen)
    (hline : ¬∃ i, SpellsFitting line i) :
    readInstruction number line = .error e ↔ Blamed seen number line e := by
  unfold readInstruction
  split
  · next hcut =>
    have hnone : ∀ i s, ¬(SpellsInstruction line i ∧ HasShape i.operands s) := by
      intro i s h
      rw [← cutInstruction?_eq_some_iff, hcut] at h
      cases h
    constructor
    · rintro ⟨⟩
      exact .malformed fun ⟨_, i, s, h⟩ => hnone i s h
    · rintro (⟨-, h, hs⟩ | -)
      · exact absurd ⟨h, hs⟩ (hnone _ _)
      · rfl
  · next i s hcut =>
    have hi := cutInstruction?_eq_some_iff.mp hcut
    have hne : s ≠ i.opcode.shape := by
      rintro rfl
      exact hline ⟨i, hi⟩
    rw [if_neg hne]
    constructor
    · rintro ⟨⟩
      exact .shape hplace hi.1 hi.2
    · rintro (@⟨j, t, -, hj, ht⟩ | h)
      · have hcut' := cutInstruction?_eq_some_iff.mpr ⟨hj, ht⟩
        rw [hcut] at hcut'
        cases hcut'
        rfl
      · exact absurd ⟨hplace, i, s, hi⟩ h

theorem readCode_eq_error_iff (hds : List.Forall₂ SpellsDeclaration ds vs)
    (his : List.Forall₂ SpellsFitting is code) : readCode number lines = .error e ↔
      Fault (beginMarker.toList :: (ds ++ endMarker.toList :: is)) number lines e := by
  have hlisting : SpellsListing (beginMarker.toList :: (ds ++ endMarker.toList :: is)) ⟨vs, code⟩ :=
    .mk (.mk hds his)
  -- The lines that were read before grow as the induction goes down the rest.
  induction lines generalizing number is code with
  | nil =>
    rw [Fault.nil_iff]
    constructor
    · rintro ⟨⟩
    · exact fun h => absurd ⟨_, hlisting⟩ h.2.1
  | cons line rest ih =>
    have hseen : beginMarker.toList :: (ds ++ endMarker.toList :: is) ++ [line] =
      beginMarker.toList :: (ds ++ endMarker.toList :: (is ++ [line])) := by simp
    have hviable := viable_code_concat_iff hds his line
    rw [readCode]
    split
    · next hblank =>
      rw [fault_blank_iff hblank]
      exact ih his hlisting
    · next hblank =>
      by_cases hline : ∃ i, SpellsFitting line i
      · rw [fault_next_iff hblank (hseen ▸ hviable.mpr hline), hseen]
        obtain ⟨i, hi⟩ := hline
        have his' := forall₂_concat his hi
        rw [readInstruction_eq_ok_iff.mpr hi]
        exact readMap_eq_error_iff.trans (ih his' (.mk (.mk hds his')))
      · rw [fault_stop_iff hblank (viable_of_spells hlisting) (hseen ▸ hline ∘ hviable.mp),
          ← readInstruction_eq_error_iff (by simp) hline, readBind_eq_error_iff]
        simp [readInstruction_eq_ok_iff, not_exists.mp hline]

/-- The end marker is not the begin marker, and no declaration. -/
theorem endMarker_not_mem (hds : List.Forall₂ SpellsDeclaration ds vs) :
    endMarker.toList ∉ beginMarker.toList :: ds := by
  rw [List.mem_cons, not_or]
  refine ⟨by decide, fun hmem => ?_⟩
  obtain ⟨v, -, hv⟩ := exists_right_of_forall₂ hds _ hmem
  exact not_spellsDeclaration_endMarker v hv

theorem readVariables_eq_error_iff (hds : List.Forall₂ SpellsDeclaration ds vs) :
    readVariables number lines = .error e ↔ Fault (beginMarker.toList :: ds) number lines e := by
  induction lines generalizing number ds vs with
  | nil =>
    have hlisting : ¬∃ l, SpellsListing (beginMarker.toList :: ds) l := by
      rintro ⟨l, h⟩
      have hbody := (SpellsListing.cons_iff.mp h).2
      rw [← List.append_nil ds] at hbody
      obtain ⟨l', h'⟩ := (SpellsBody.append_iff hds).mp ⟨l, hbody⟩
      exact SpellsBody.ne_nil h'
    rw [Fault.nil_iff, and_iff_right (viable_declarations hds), and_iff_right hlisting]
    rw [readVariables, Except.error.injEq, eq_comm]
  | cons line rest ih =>
    have hviable := viable_declarations_concat_iff hds line
    rw [readVariables]
    split
    · next hblank =>
      rw [fault_blank_iff hblank]
      exact ih hds
    · next hblank =>
      split
      · next hend =>
        rw [fault_next_iff hblank (hviable.mpr (.inl hend)), hend]
        exact readEnd_eq_error_iff.trans (readCode_eq_error_iff hds .nil)
      · next hend =>
        by_cases hline : ∃ v, SpellsDeclaration line v
        · rw [fault_next_iff hblank (hviable.mpr (.inr hline))]
          obtain ⟨v, hv⟩ := hline
          rw [readVariable_eq_ok_iff.mpr hv]
          exact readMap_eq_error_iff.trans (ih (forall₂_concat hds hv))
        · have hstop : ¬Viable (beginMarker.toList :: ds ++ [line]) :=
            fun h => (hviable.mp h).elim hend hline
          rw [fault_stop_iff hblank (viable_declarations hds) hstop,
            blamed_iff_of_not_mem (endMarker_not_mem hds), ← readVariable_eq_error_iff hline,
            readBind_eq_error_iff]
          simp [readVariable_eq_ok_iff, not_exists.mp hline]

theorem readLines_eq_error_iff :
    readLines number lines = .error e ↔ Fault [] number lines e := by
  induction lines generalizing number with
  | nil =>
    have hlisting : ¬∃ l, SpellsListing [] l := by rintro ⟨l, ⟨⟩⟩
    rw [Fault.nil_iff, and_iff_right viable_nil, and_iff_right hlisting]
    rw [readLines, Except.error.injEq, eq_comm]
  | cons line rest ih =>
    rw [readLines]
    split
    · next hblank =>
      rw [fault_blank_iff hblank]
      exact ih
    · next hblank =>
      split
      · next hbegin =>
        rw [fault_next_iff hblank (viable_singleton_iff.mpr hbegin), hbegin]
        exact readVariables_eq_error_iff .nil
      · next hbegin =>
        rw [fault_stop_iff hblank viable_nil (hbegin ∘ viable_singleton_iff.mp),
          blamed_iff_of_not_mem (List.not_mem_nil), Except.error.injEq, eq_comm]

end

/-- **The reader accepts its grammar and blames the first bad line.**  A text is read if its lines
that are not blank are those of a listing, which is what is read; otherwise the error is about the
first line that no continuation saves, or about the end. -/
theorem ofText_decides_grammar (text : String) :
    ∃ lines, (∀ ls, Text.Splits text.toList ls ↔ lines = ls) ∧
      (∀ l, ofText text = .ok l ↔ SpellsListing (inked lines) l) ∧
        ∀ e, ofText text = .error e ↔ Fault [] 1 lines e :=
  ⟨Text.lines text.toList, fun _ => Text.splits_iff, fun _ => ofText_eq_ok_iff,
    fun _ => readLines_eq_error_iff⟩

/-- Blank lines count, and a marker is no declaration. -/
example : ofText "  %beginVarDecl\r\n \t\n  %beginVarDecl\r\n" =
    .error (.malformedListing 3 "  %beginVarDecl") := by decide +kernel

end Listing
end ProcTree
