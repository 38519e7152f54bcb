/-
# What lowering adds, however it ends

Lowering registers and emits until it fails, and what is there by then stays.  So this file is
about every outcome, in both layouts, and about trees that no checker has accepted.

* `Builder.Extends`: all that was there stays in place, and the new instructions have a property
  that may speak of the table (`Lasting`).
* `Tree.lower_moves`: the new instructions refer to registered variables and to the targets of
  lowered assignments only (`Instruction.RefersTo`), and the value of a tree is in a registered
  variable.  A target is the one operand that is not looked up.
* `Tree.compile_extends`: a compilation adds variables at the end of the table, and that is all
  it does to it.
-/
import ProcTree.Proofs.Lowering.Steps

namespace ProcTree

/-! ## 1. Extensions -/

/-- A property of instructions that more variables at the end of the table do not take away, and
that instructions without operands have. -/
structure Lasting (P : Table → Instruction → Prop) : Prop where
  lasts : ∀ {t t' : Table} {i : Instruction}, t.entries <+: t'.entries → P t i → P t' i
  carrier : ∀ (t : Table) (l : Label), P t (.carrier l)
  jumping : ∀ (t : Table) (l : Label), P t (Tree.jumping l)

namespace Builder

/-- The second builder has all that the first one has and more at the end, is well formed if the
first one is, and its new instructions have the property. -/
structure Extends (P : Table → Instruction → Prop) (b b' : Builder) : Prop where
  entries : b.table.entries <+: b'.table.entries
  wellFormed : b.table.WellFormed → b'.table.WellFormed
  code : ∃ segment, b'.code = b.code ++ segment ∧ ∀ i ∈ segment, P b'.table i

namespace Extends

variable {P : Table → Instruction → Prop} {b b₁ b₂ b' : Builder}

theorem refl (b : Builder) : Extends P b b :=
  ⟨List.prefix_rfl, id, [], by simp, fun _ hi => nomatch hi⟩

theorem trans (hP : Lasting P) (h : Extends P b b₁) (h' : Extends P b₁ b₂) : Extends P b b₂ := by
  obtain ⟨seg, hc, hseg⟩ := h.code
  obtain ⟨seg', hc', hseg'⟩ := h'.code
  refine ⟨h.entries.trans h'.entries, fun hb => h'.wellFormed (h.wellFormed hb), seg ++ seg',
    ?_, ?_⟩
  · rw [hc', hc, List.append_assoc]
  · intro i hi
    rcases List.mem_append.mp hi with hi | hi
    · exact hP.lasts h'.entries (hseg i hi)
    · exact hseg' i hi

theorem composes (hP : Lasting P) : Composes (Extends P) := ⟨refl, trans hP⟩

/-- One more instruction with the property. -/
theorem push {i : Instruction} (hi : P b.table i) : Extends P b (b.push i) := by
  refine ⟨List.prefix_rfl, id, [i], rfl, ?_⟩
  intro j hj
  rw [List.mem_singleton.mp hj]
  exact hi

/-- More variables and no code. -/
theorem of_table {table : Table} (he : b.table.entries <+: table.entries)
    (hw : b.table.WellFormed → table.WellFormed) : Extends P b { b with table } :=
  ⟨he, hw, [], by simp, fun _ hi => nomatch hi⟩

theorem withTemp (b : Builder) (v : Value) : Extends P b (b.withTemp v) :=
  of_table ⟨_, rfl⟩ fun hb => hb.withTemp v

theorem takeLabel (b : Builder) : Extends P b b.takeLabel :=
  ⟨List.prefix_rfl, id, [], by simp, fun _ hi => nomatch hi⟩

theorem registers (h : Extends P b b') {g : Handle} (hg : b.table.Registers g) :
    b'.table.Registers g := hg.of_prefix h.entries

theorem codeGrows (h : Extends P b b') : b.code <+: b'.code := by
  obtain ⟨seg, hc, -⟩ := h.code
  exact ⟨seg, hc.symm⟩

/-- All code of a builder that had none at first is new. -/
theorem of_ofTable {table : Table} (h : Extends P (.ofTable table) b') :
    ∀ i ∈ b'.code, P b'.table i := by
  obtain ⟨seg, hc, hseg⟩ := h.code
  have hcode : b'.code = seg := hc
  rwa [hcode]

end Extends
end Builder

/-! ## 2. Steps that need no property -/

namespace Lowering
open Builder

variable {P : Table → Instruction → Prop} {b : Builder}

theorem moves_append {i : Instruction} (hi : P b.table i) :
    Moves (Extends P) (fun _ _ => True) (append i) b :=
  .of_ok (append_apply i b) (.push hi) trivial

theorem moves_attach (hP : Lasting P) (l : Label) :
    Moves (Extends P) (fun _ _ => True) (attach l) b := moves_append (hP.carrier b.table l)

theorem moves_newLabel : Moves (Extends P) (fun _ _ => True) newLabel b :=
  .of_ok (newLabel_apply b) (.takeLabel b) trivial

/-- A temporary is registered under the handle that is given for it. -/
theorem moves_temp (ty : Ty) :
    Moves (Extends P) (fun h b' => b'.table.Registers h) (temp ty) b := by
  cases ty with
  | none => exact .of_error (temp_none b) (.of_table List.prefix_rfl fun hb => ⟨hb.1, hb.2⟩)
  | some k =>
    have hr := Table.registers_withTemp b.table (.zero k)
    rw [Value.kind_zero] at hr
    exact .of_ok (temp_some k b) (.withTemp b _) hr

theorem moves_tempOf (v : Value) :
    Moves (Extends P) (fun h b' => b'.table.Registers h) (tempOf v) b :=
  .of_ok (tempOf_apply v b) (.withTemp b v) (b.table.registers_withTemp v)

theorem moves_lookup (name : String) :
    Moves (Extends P) (fun h b' => b'.table.Registers h) (lookup name) b := by
  cases hl : b.table.lookup name with
  | error e => exact .of_error (lookup_of_error hl) (.refl b)
  | ok h =>
    refine .of_ok (lookup_of_ok hl) (.refl b) ?_
    obtain ⟨v, hv, rfl⟩ := Table.lookup_eq_ok_iff.mp hl
    exact Table.registers_iff.mpr ⟨v, by rwa [Variable.handle, Table.name_of_find? hv], rfl⟩

/-- An operand, and then what is done with its variable. -/
theorem moves_operand (hP : Lasting P) {β : Type} {x : Lowering (Option Handle)}
    {construct : String} {rest : Handle → Lowering β} {Q : Option Handle → Builder → Prop}
    {Q' : β → Builder → Prop} (hx : Moves (Extends P) Q x b)
    (hrest : ∀ h b₁, Extends P b b₁ → Q (some h) b₁ → Moves (Extends P) Q' (rest h) b₁) :
    Moves (Extends P) Q' (x >>= fun r => needed construct r >>= rest) b := by
  refine .bind (Extends.composes hP) hx ?_
  intro r b₁ hstep hr
  cases r with
  | none => exact .of_error (bind_of_error rfl) (.refl b₁)
  | some h => exact hrest h b₁ hstep hr

/-- Another step, and then a result without a variable. -/
theorem moves_end (hP : Lasting P) {α : Type} {x : Lowering α} {Q : α → Builder → Prop}
    {Q' : Option Handle → Builder → Prop} (hx : Moves (Extends P) Q x b)
    (hnone : ∀ b', Q' none b') : Moves (Extends P) Q' (x >>= fun _ => pure none) b :=
  .bind (Extends.composes hP) hx fun _ b' _ _ => .pure (Extends.composes hP) (hnone b')

end Lowering

/-! ## 3. Operands -/

/-- Each operand is registered or free. -/
def Instruction.RefersTo (free : Handle → Prop) (table : Table) (i : Instruction) : Prop :=
  ∀ h ∈ i.operands.handles, table.Registers h ∨ free h

theorem lasting_refersTo (free : Handle → Prop) : Lasting (Instruction.RefersTo free) where
  lasts he hi h hh := (hi h hh).imp_left fun hr => hr.of_prefix he
  carrier _ _ _ hh := nomatch hh
  jumping _ _ _ hh := nomatch hh

namespace Lowering
open Builder

variable {free : Handle → Prop} {b : Builder} {left right result : Handle}

/-- The second of two builders extends the first by instructions on registered or free variables. -/
abbrev Refers (free : Handle → Prop) : Builder → Builder → Prop :=
  Extends (Instruction.RefersTo free)

theorem composes_refers (free : Handle → Prop) : Composes (Refers free) :=
  Extends.composes (lasting_refersTo free)

/-- The result is a registered variable, if there is one. -/
def Holds (r : Option Handle) (b : Builder) : Prop := ∀ h, r = some h → b.table.Registers h

theorem Holds.some {h : Handle} {b : Builder} (hh : Holds (some h) b) : b.table.Registers h :=
  hh h rfl

theorem holds_some {h : Handle} {b : Builder} (hh : b.table.Registers h) : Holds (some h) b := by
  rintro _ ⟨⟩
  exact hh

theorem holds_none (b : Builder) : Holds none b := fun _ h => nomatch h

theorem moves_two {o : Opcode} {fits} (hresult : b.table.Registers result ∨ free result)
    (hl : b.table.Registers left) :
    Moves (Refers free) (fun _ _ => True) (append ⟨o, .two result left, none, fits⟩) b := by
  refine moves_append ?_
  simp only [Instruction.RefersTo, Operands.handles, List.forall_mem_cons]
  exact ⟨hresult, .inl hl, fun _ hh => nomatch hh⟩

theorem moves_three {o : Opcode} {fits} (hresult : b.table.Registers result)
    (hl : b.table.Registers left) (hr : b.table.Registers right) :
    Moves (Refers free) (fun _ _ => True) (append ⟨o, .three result left right, none, fits⟩) b := by
  refine moves_append ?_
  simp only [Instruction.RefersTo, Operands.handles, List.forall_mem_cons]
  exact ⟨.inl hresult, .inl hl, .inl hr, fun _ hh => nomatch hh⟩

theorem moves_asReal (hl : b.table.Registers left) :
    Moves (Refers free) (fun h b' => b'.table.Registers h) (asReal left) b := by
  have hR := composes_refers free
  unfold asReal
  split
  · refine .bind hR (moves_temp _) fun r b₁ hstep hr => ?_
    refine .bind hR (moves_two (.inl hr) (hstep.registers hl)) fun _ b₂ hstep' _ => ?_
    exact .pure hR (hstep'.registers hr)
  · exact .pure hR hl

theorem moves_matched (hl : b.table.Registers left) (hr : b.table.Registers right) :
    Moves (Refers free) (fun p b' => b'.table.Registers p.1 ∧ b'.table.Registers p.2)
      (matched left right) b := by
  have hR := composes_refers free
  unfold matched
  split
  · exact .bind hR (moves_asReal hl) fun _ _ hstep h => .pure hR ⟨h, hstep.registers hr⟩
  · exact .bind hR (moves_asReal hr) fun _ _ hstep h => .pure hR ⟨hstep.registers hl, h⟩
  · exact .pure hR ⟨hl, hr⟩

/-- The code of an operator refers to its operands, its result and new temporaries. -/
theorem moves_apply (op : Operator) (hresult : b.table.Registers result)
    (hl : b.table.Registers left) (hr : b.table.Registers right) :
    Moves (Refers free) (fun _ _ => True) (apply op result left right) b := by
  have hR := composes_refers free
  cases op with
  | comparison c =>
    rw [apply_comparison]
    refine .bind hR (moves_matched hl hr) fun p b₁ hstep hp => ?_
    cases hn : Numeric.ofKind? p.1.kind with
    | some n =>
      rw [compared_of_some hn]
      exact moves_three (hstep.registers hresult) hp.1 hp.2
    | none =>
      rw [compared_of_none hn]
      exact .throw hR _
  | arithmetic a =>
    refine .bind hR (moves_matched hl hr) fun p b₁ hstep hp => ?_
    refine .bind hR (moves_two (.inl (hstep.registers hresult)) hp.1) fun _ b₂ hstep' _ => ?_
    exact moves_two (.inl (hstep'.registers (hstep.registers hresult))) (hstep'.registers hp.2)
  | realDivision =>
    refine .bind hR (moves_asReal hl) fun left' b₁ hstep hl' => ?_
    refine .bind hR (moves_asReal (hstep.registers hr)) fun right' b₂ hstep' hr' => ?_
    exact moves_three (hstep'.registers (hstep.registers hresult)) (hstep'.registers hl') hr'
  | wholeDivision d => cases d <;> exact moves_three hresult hl hr
  | logical c => exact moves_three hresult hl hr

theorem moves_negated (hl : b.table.Registers left) :
    Moves (Refers free) Holds (negated left) b := by
  have hR := composes_refers free
  refine .bind hR (moves_temp _) fun result b₁ hstep hr => ?_
  refine .bind hR (moves_two (.inl hr) (hstep.registers hl)) fun _ b₂ hstep' _ => ?_
  exact .pure hR (holds_some (hstep'.registers hr))

theorem moves_combined (op : Operator) (ty : Ty) (hl : b.table.Registers left)
    (hr : b.table.Registers right) :
    Moves (Refers free) Holds (combined op ty left right) b := by
  have hR := composes_refers free
  refine .bind hR (moves_temp _) fun result b₁ hstep hresult => ?_
  refine .bind hR (moves_apply op hresult (hstep.registers hl) (hstep.registers hr))
    fun _ b₂ hstep' _ => ?_
  exact .pure hR (holds_some (hstep'.registers hresult))

/-- An assignment refers to its source and to its target, which is taken as it comes. -/
theorem moves_copy (ht : free result) (hl : b.table.Registers left) :
    Moves (Refers free) (fun _ _ => True) (copy result left) b := by
  unfold copy
  split <;> first
    | exact moves_two (.inr ht) hl
    | exact .throw (composes_refers free) _

end Lowering

/-! ## 4. What a layout lowers of a tree -/

namespace Tree
open Lowering Builder

mutual

/-- What the layout lowers of a tree: the legacy one does without the other branch of a choice. -/
def lowered (layout : ChoiceLayout) : Tree → Tree
  | .constant v => .constant v
  | .reference h => .reference h
  | .negation a => .negation (a.lowered layout)
  | .binary op a b => .binary op (a.lowered layout) (b.lowered layout)
  | .assign h a => .assign h (a.lowered layout)
  | .write a n => .write (a.lowered layout) n
  | .choice c a => .choice (c.lowered layout) (a.lowered layout)
  | .choiceElse c a b =>
    .choiceElse (c.lowered layout) (a.lowered layout)
      (if layout = .structured then b.lowered layout else .block [])
  | .loop c a => .loop (c.lowered layout) (a.lowered layout)
  | .block ts => .block (loweredAll layout ts)

/-- What the layout lowers of each of the trees. -/
def loweredAll (layout : ChoiceLayout) : List Tree → List Tree
  | [] => []
  | t :: ts => t.lowered layout :: loweredAll layout ts

end

theorem loweredAll_eq (layout : ChoiceLayout) (ts : List Tree) :
    loweredAll layout ts = ts.map (lowered layout) := by
  induction ts with
  | nil => rfl
  | cons t ts ih => rw [loweredAll, ih, List.map_cons]

/-- The structured layout lowers all of a tree. -/
theorem lowered_structured (t : Tree) : t.lowered .structured = t := by
  induction t using Tree.ind with
  | constant v => rfl
  | reference h => rfl
  | negation a iha => rw [lowered, iha]
  | binary op a b iha ihb => rw [lowered, iha, ihb]
  | assign h a iha => rw [lowered, iha]
  | write a n iha => rw [lowered, iha]
  | choice c a ihc iha => rw [lowered, ihc, iha]
  | choiceElse c a b ihc iha ihb => rw [lowered, ihc, iha, if_pos rfl, ihb]
  | loop c a ihc iha => rw [lowered, ihc, iha]
  | block ts ih => rw [lowered, loweredAll_eq, List.map_congr_left ih, List.map_id']

/-- What is left out is never an operand. -/
theorem staticType_lowered (layout : ChoiceLayout) (t : Tree) :
    (t.lowered layout).staticType = t.staticType := by
  induction t using Tree.ind with
  | binary op a b iha ihb => rw [lowered, staticType, iha, ihb, staticType]
  | _ => rfl

/-! ## 5. Trees -/

variable {free : Handle → Prop} {layout : ChoiceLayout} {b : Builder}

/-- The jump away from a false condition refers to the condition. -/
theorem moves_leaving {condition : Handle} {l : Label} (hc : b.table.Registers condition) :
    Moves (Refers free) (fun _ _ => True) (append (leaving condition l)) b := by
  refine moves_append ?_
  simp only [Instruction.RefersTo, leaving, Operands.handles, List.forall_mem_cons]
  exact ⟨.inl hc, fun _ hh => absurd hh List.not_mem_nil⟩

theorem moves_jumping (l : Label) :
    Moves (Refers free) (fun _ _ => True) (append (jumping l)) b :=
  moves_append ((lasting_refersTo free).jumping b.table l)

/-- A label at the end of a construct. -/
theorem moves_landing (l : Label) :
    Moves (Refers free) Holds (attach l >>= fun _ => pure none) b :=
  moves_end (lasting_refersTo free) (moves_attach (lasting_refersTo free) l) holds_none

variable {c a a₁ a₂ : Tree}

theorem moves_choice (hc : Moves (Refers free) Holds (c.lower layout) b)
    (ha : ∀ b', Moves (Refers free) Holds (a.lower layout) b') :
    Moves (Refers free) Holds ((Tree.choice c a).lower layout) b := by
  have hR := composes_refers free
  rw [lower_choice_layout]
  refine moves_operand (lasting_refersTo free) hc fun condition b₁ _ hcond => ?_
  refine .bind hR moves_newLabel fun l b₂ hstep _ => ?_
  refine .bind hR (moves_leaving (hstep.registers hcond.some)) fun _ b₃ _ _ => ?_
  refine .bind hR (ha b₃).discard fun _ b₄ _ _ => ?_
  unfold landing
  split
  · exact moves_landing l
  · exact .pure hR (holds_none b₄)

theorem moves_choiceElse (hc : Moves (Refers free) Holds (c.lower layout) b)
    (h₁ : ∀ b', Moves (Refers free) Holds (a₁.lower layout) b')
    (h₂ : layout = .structured → ∀ b', Moves (Refers free) Holds (a₂.lower layout) b') :
    Moves (Refers free) Holds ((Tree.choiceElse c a₁ a₂).lower layout) b := by
  have hP := lasting_refersTo free
  have hR := composes_refers free
  rw [lower_choiceElse_layout]
  refine moves_operand hP hc fun condition b₁ _ hcond => ?_
  refine .bind hR moves_newLabel fun l b₂ hstep _ => ?_
  refine .bind hR moves_newLabel fun l' b₃ hstep' _ => ?_
  have hcondition := hstep'.registers (hstep.registers hcond.some)
  refine .bind hR (moves_leaving hcondition) fun _ b₄ _ _ => ?_
  refine .bind hR (h₁ b₄).discard fun _ b₅ _ _ => ?_
  refine .bind hR (moves_jumping l') fun _ b₆ _ _ => ?_
  unfold otherBranch
  split
  · next hs =>
    refine .bind hR (.bind hR (moves_attach hP l) fun _ b₇ _ _ => (h₂ hs b₇).discard) ?_
    exact fun _ b₈ _ _ => moves_landing l'
  · exact moves_landing l'

theorem moves_loop (hc : ∀ b', Moves (Refers free) Holds (c.lower layout) b')
    (ha : ∀ b', Moves (Refers free) Holds (a.lower layout) b') :
    Moves (Refers free) Holds ((Tree.loop c a).lower layout) b := by
  have hP := lasting_refersTo free
  have hR := composes_refers free
  rw [lower_loop]
  refine .bind hR moves_newLabel fun l b₁ _ _ => .bind hR moves_newLabel fun l' b₂ _ _ => ?_
  refine .bind hR (moves_attach hP l) fun _ b₃ _ _ => ?_
  refine moves_operand hP (hc b₃) fun condition b₄ _ hcond => ?_
  refine .bind hR (moves_leaving hcond.some) fun _ b₅ _ _ => ?_
  refine .bind hR (ha b₅).discard fun _ b₆ _ _ => ?_
  exact .bind hR (moves_jumping l) fun _ b₇ _ _ => moves_landing l'

/-- **Lowering extends the builder**, however it ends: the new instructions refer to registered
variables and to targets of lowered assignments, and the value of the tree is in a registered
variable. -/
theorem lower_moves (layout : ChoiceLayout) (t : Tree) : ∀ {b : Builder},
    (∀ h ∈ (t.lowered layout).targets, free h) →
      Moves (Refers free) Holds (t.lower layout) b := by
  have hP := lasting_refersTo free
  have hR := composes_refers free
  have sub : ∀ {c t : Tree}, c ∈ t.children → (∀ h ∈ t.targets, free h) →
      ∀ h ∈ c.targets, free h := fun hc hf h hh => hf h (targets_subset_of_child hc hh)
  induction t using Tree.ind with
  | constant v =>
    intro b _
    exact .bind hR (moves_tempOf v) fun h b' _ hh => .pure hR (holds_some hh)
  | reference g =>
    intro b _
    exact .bind hR (moves_lookup g.name) fun h b' _ hh => .pure hR (holds_some hh)
  | negation a iha =>
    intro b hf
    rw [lowered] at hf
    rw [lower_negation]
    exact moves_operand hP (iha (sub (by simp [children]) hf)) fun source b₁ _ hs =>
      moves_negated hs.some
  | binary op a₁ a₂ ih₁ ih₂ =>
    intro b hf
    rw [lowered] at hf
    rw [lower_binary]
    refine moves_operand hP (ih₁ (sub (by simp [children]) hf)) fun left b₁ _ hl => ?_
    refine moves_operand hP (ih₂ (sub (by simp [children]) hf)) fun right b₂ hstep hr => ?_
    exact moves_combined op _ (hstep.registers hl.some) hr.some
  | assign g a iha =>
    intro b hf
    rw [lowered] at hf
    rw [lower]
    refine moves_operand hP (iha (sub (by simp [children]) hf)) fun source b₁ _ hs => ?_
    exact moves_end hP (moves_copy (hf g (target_mem_targets g _)) hs.some) holds_none
  | write a n iha =>
    intro b hf
    rw [lowered] at hf
    rw [lower_write]
    refine moves_operand hP (iha (sub (by simp [children]) hf)) fun source b₁ _ hs => ?_
    refine moves_end hP (moves_append ?_) holds_none
    intro h hh
    obtain rfl : h = source := by cases n <;> simpa [writing, Operands.handles] using hh
    exact .inl hs.some
  | choice c a ihc iha =>
    intro b hf
    rw [lowered] at hf
    exact moves_choice (ihc (sub (by simp [children]) hf))
      fun b' => iha (sub (by simp [children]) hf)
  | choiceElse c a₁ a₂ ihc ih₁ ih₂ =>
    intro b hf
    rw [lowered] at hf
    refine moves_choiceElse (ihc (sub (by simp [children]) hf))
      (fun b' => ih₁ (sub (by simp [children]) hf)) fun hs b' => ?_
    rw [if_pos hs] at hf
    exact ih₂ (sub (by simp [children]) hf)
  | loop c a ihc iha =>
    intro b hf
    rw [lowered] at hf
    exact moves_loop (fun b' => ihc (sub (by simp [children]) hf))
      fun b' => iha (sub (by simp [children]) hf)
  | block ts ih =>
    intro b hf
    rw [lowered, loweredAll_eq] at hf
    have all : ∀ us, us ⊆ ts → ∀ {b : Builder},
        Moves (Refers free) (fun _ _ => True) (lowerAll layout us) b := by
      intro us
      induction us with
      | nil => exact fun _ _ => .pure hR trivial
      | cons u us ihus =>
        intro hus b
        have hu : u ∈ ts := hus List.mem_cons_self
        have hchild : u.lowered layout ∈ (Tree.block (ts.map (lowered layout))).children :=
          List.mem_map_of_mem hu
        exact .bind hR (ih u hu (sub hchild hf)).discard
          fun _ _ _ _ => ihus (List.subset_of_cons_subset hus)
    exact moves_end hP (all ts (List.Subset.refl ts)) holds_none

/-- What a success leaves. -/
theorem lower_refers {t : Tree} {b b' : Builder} {r : Option Handle}
    (h : t.lower layout b = .ok r b') :
    Refers (fun g => g ∈ (t.lowered layout).targets) b b' ∧ Holds r b' :=
  (lower_moves layout t fun _ hh => hh).ok h

/-! ## 6. Compilations -/

/-- **A compilation adds variables at the end of the table**, however it ends, and that is all it
does to it. -/
theorem compile_extends (t : Tree) (options : Options) (table : Table) :
    table.entries <+: (leaves (t.compile options) table).entries ∧
      (table.WellFormed → (leaves (t.compile options) table).WellFormed) := by
  rcases leaves_compile t options table with h | h
  · rw [h]
    exact ⟨List.prefix_rfl, id⟩
  · have hmoves := (lower_moves options.layout t (b := .ofTable table) fun _ hh => hh).1
    rw [h]
    exact ⟨hmoves.entries, hmoves.wellFormed⟩

end Tree
end ProcTree
