/-
# Lowered code is well typed

An opcode works on variables of certain kinds (`Opcode.takes`).  Lowering picks it by the kinds of
the operands' variables or by the static type of the result, and converts integers on its way.  On
a tree that the checker accepts the two views agree: in every new instruction the kinds that the
table declares for the operands are kinds that the opcode takes (`Instruction.Typed`).

* `Tree.lower_ends`: how lowering ends on an accepted tree.  It fails with the fault of what the
  layout lowers of it, if that has one.  If not, it succeeds with typed code, and the value of the
  tree is in a variable of the tree's static type.
* `Tree.lower_typed`: what a success leaves, in either layout and after any code.
-/
import ProcTree.Proofs.Lowering.Extension
import ProcTree.Proofs.Lowering.Faults
import ProcTree.Proofs.Operator

namespace ProcTree

/-! ## 1. Typed instructions -/

/-- The kind that the table declares for this name. -/
def Table.kindOf? (t : Table) (name : String) : Option Kind := (t.find? name).map Variable.kind

/-- The opcode works on operands of these kinds. -/
def Opcode.takes (o : Opcode) (ks : List Kind) : Bool :=
  match o with
  | .noOp | .goto | .mark => ks = []
  | .clearBoolean | .gotoUnless | .gotoIf => ks = [.boolean]
  | .clear n => ks = [n.kind]
  | .write | .writeLine => ks.length = 1
  | .copy n | .accumulate n _ => ks = [n.kind, n.kind]
  | .copyOther => ks = [.boolean, .boolean] || ks = [.string, .string]
  | .negate => ks = [.boolean, .boolean]
  | .widen => ks = [.real, .integer]
  | .divide n => ks = [n.kind, n.kind, n.kind]
  | .remainder => ks = [.integer, .integer, .integer]
  | .connect _ => ks = [.boolean, .boolean, .boolean]
  | .compare n _ => ks = [.boolean, n.kind, n.kind]

/-- The table declares every operand, with kinds that the opcode takes. -/
def Instruction.Typed (table : Table) (i : Instruction) : Prop :=
  ∃ ks, i.operands.handles.map (fun h => table.kindOf? h.name) = ks.map some ∧
    i.opcode.takes ks = true

theorem Table.Registers.kindOf? {t : Table} {h : Handle} (hr : t.Registers h) :
    t.kindOf? h.name = some h.kind := by
  obtain ⟨v, hv, hk⟩ := registers_iff.mp hr
  rw [Table.kindOf?, hv, Option.map_some, hk]

theorem Table.kindOf?_of_prefix {t t' : Table} (h : t.entries <+: t'.entries) {name : String}
    {k : Kind} (hk : t.kindOf? name = some k) : t'.kindOf? name = some k := by
  rw [Table.kindOf?, Option.map_eq_some_iff] at hk ⊢
  obtain ⟨v, hv, hvk⟩ := hk
  exact ⟨v, find?_of_prefix h hv, hvk⟩

/-- An instruction on registered variables is typed if the opcode takes the handles' kinds. -/
theorem typed_of_registers {t : Table} {i : Instruction}
    (hr : ∀ h ∈ i.operands.handles, t.Registers h)
    (ht : i.opcode.takes (i.operands.handles.map Handle.kind) = true) : i.Typed t := by
  refine ⟨i.operands.handles.map Handle.kind, ?_, ht⟩
  rw [List.map_map]
  exact List.map_congr_left fun h hh => (hr h hh).kindOf?

theorem lasting_typed : Lasting Instruction.Typed where
  lasts := by
    rintro t t' i he ⟨ks, hks, ht⟩
    refine ⟨ks, ?_, ht⟩
    rw [← hks]
    refine List.map_congr_left fun h hh => ?_
    have hsome : t.kindOf? h.name ∈ ks.map some := hks ▸ List.mem_map_of_mem hh
    obtain ⟨k, -, hk⟩ := List.mem_map.mp hsome
    rw [← hk]
    exact Table.kindOf?_of_prefix he hk.symm
  carrier _ _ := ⟨[], rfl, rfl⟩
  jumping _ _ := ⟨[], rfl, rfl⟩

/-! ## 2. Steps on registered variables -/

/-- The version of an instruction for operands of these kinds: for integers if both are. -/
def Numeric.common (k l : Kind) : Numeric :=
  if k = .integer ∧ l = .integer then .integer else .real

theorem Operator.resultTy_arithmetic (a : Arithmetic) (k l : Kind) :
    (Operator.arithmetic a).resultTy (some k) (some l) = some (Numeric.common k l).kind := by
  by_cases h : k = .integer ∧ l = .integer <;>
    simp [Operator.resultTy, Numeric.common, h, Numeric.kind]

namespace Lowering
open Builder

variable {b : Builder} {left right result : Handle}

/-- The second of two builders extends the first by typed instructions. -/
abbrev Types : Builder → Builder → Prop := Extends Instruction.Typed

theorem composes_types : Composes Types := Extends.composes lasting_typed

/-- The variable is registered, with this kind. -/
def Has (k : Kind) (h : Handle) (b : Builder) : Prop := b.table.Registers h ∧ h.kind = k

theorem Has.types {k : Kind} {h : Handle} {b b' : Builder} (hh : Has k h b) (hstep : Types b b') :
    Has k h b' := ⟨hstep.registers hh.1, hh.2⟩

theorem ends_append {i : Instruction} (hi : i.Typed b.table) :
    Ends Types (fun _ _ => True) none (append i) b :=
  .of_ok (append_apply i b) (.push hi) trivial

theorem ends_temp (k : Kind) : Ends Types (Has k) none (temp (some k)) b := by
  have hr := Table.registers_withTemp b.table (.zero k)
  rw [Value.kind_zero] at hr
  exact .of_ok (temp_some k b) (.withTemp b _) ⟨hr, rfl⟩

theorem ends_two {o : Opcode} {fits} {k l : Kind} (hresult : Has k result b)
    (hl : Has l left b) (ht : o.takes [k, l] = true) :
    Ends Types (fun _ _ => True) none (append ⟨o, .two result left, none, fits⟩) b := by
  obtain ⟨hresult, rfl⟩ := hresult
  obtain ⟨hl, rfl⟩ := hl
  exact ends_append (typed_of_registers (by simp [Operands.handles, hresult, hl]) ht)

theorem ends_three {o : Opcode} {fits} {k l m : Kind} (hresult : Has k result b)
    (hl : Has l left b) (hr : Has m right b) (ht : o.takes [k, l, m] = true) :
    Ends Types (fun _ _ => True) none (append ⟨o, .three result left right, none, fits⟩) b := by
  obtain ⟨hresult, rfl⟩ := hresult
  obtain ⟨hl, rfl⟩ := hl
  obtain ⟨hr, rfl⟩ := hr
  exact ends_append (typed_of_registers (by simp [Operands.handles, hresult, hl, hr]) ht)

variable {k l m : Kind}

/-- A number becomes a real. -/
theorem ends_asReal (hl : Has k left b) (hk : k.isNumeric = true) :
    Ends Types (Has .real) none (asReal left) b := by
  unfold asReal
  split
  · next hi =>
    have hl : Has .integer left b := ⟨hl.1, hi⟩
    refine .andThen composes_types (ends_temp .real) fun r b₁ hstep hr => ?_
    refine .andThen composes_types (ends_two hr (hl.types hstep) rfl) fun _ b₂ hstep' _ => ?_
    exact .pure composes_types (hr.types hstep')
  · next hi =>
    obtain ⟨hl, rfl⟩ := hl
    have hreal : left.kind = .real := by
      cases hkind : left.kind <;> simp [hkind, Kind.isNumeric] at hi hk ⊢
    exact .pure composes_types ⟨hl, hreal⟩

/-- Two numbers become numbers of their common kind. -/
theorem ends_matched (hl : Has k left b) (hr : Has l right b) (hk : k.isNumeric = true)
    (hl' : l.isNumeric = true) :
    Ends Types (fun p b' => Has (Numeric.common k l).kind p.1 b' ∧
        Has (Numeric.common k l).kind p.2 b') none (matched left right) b := by
  obtain ⟨n, k⟩ := left
  obtain ⟨n', l⟩ := right
  obtain ⟨hln, rfl⟩ := hl
  obtain ⟨hrn, rfl⟩ := hr
  cases k with
  | integer =>
    cases l with
    | integer => exact .pure composes_types ⟨⟨hln, rfl⟩, hrn, rfl⟩
    | real =>
      exact .andThen composes_types (ends_asReal ⟨hln, rfl⟩ hk) fun h b₁ hstep hh =>
        .pure composes_types ⟨hh, Has.types ⟨hrn, rfl⟩ hstep⟩
    | boolean | string => cases hl'
  | real =>
    cases l with
    | integer =>
      exact .andThen composes_types (ends_asReal ⟨hrn, rfl⟩ hl') fun h b₁ hstep hh =>
        .pure composes_types ⟨Has.types ⟨hln, rfl⟩ hstep, hh⟩
    | real => exact .pure composes_types ⟨⟨hln, rfl⟩, hrn, rfl⟩
    | boolean | string => cases hl'
  | boolean | string => cases hk

/-- What is no number is left as it is. -/
theorem matched_of_other (hk : left.kind.isNumeric = false) :
    matched left right = pure (left, right) := by
  obtain ⟨n, k⟩ := left
  cases k with
  | boolean | string => rfl
  | integer | real => cases hk

/-- A comparison of numbers has an instruction, and one of booleans or strings has none. -/
theorem ends_comparison (c : Comparison) (hc : Operator.takes (.comparison c) (some k) (some l))
    (hresult : Has .boolean result b) (hl : Has k left b) (hr : Has l right b) :
    Ends Types (fun _ _ => True) (Operator.fault? (.comparison c) (some k))
      (apply (.comparison c) result left right) b := by
  rw [apply_comparison]
  by_cases hnum : k.isNumeric = true
  · have hl' : l.isNumeric = true := by
      cases k <;> cases l <;> simp_all [Operator.takes, Ty.isNumeric, Kind.isNumeric]
    have hfault : Operator.fault? (.comparison c) (some k) = none := by
      cases k <;> simp_all [Operator.fault?, Kind.isNumeric]
    rw [hfault]
    refine .andThen composes_types (ends_matched hl hr hnum hl') fun p b₁ hstep hp => ?_
    have hof : Numeric.ofKind? p.1.kind = some (Numeric.common k l) := by
      rw [hp.1.2]
      cases Numeric.common k l <;> rfl
    rw [compared_of_some hof]
    exact ends_three (hresult.types hstep) hp.1 hp.2 (by simp [Opcode.takes])
  · obtain ⟨-, rfl⟩ := hl
    have hother : left.kind.isNumeric = false := by simpa using hnum
    have hof : Numeric.ofKind? left.kind = none := by
      cases hkind : left.kind <;> simp [hkind, Kind.isNumeric, Numeric.ofKind?] at hother ⊢
    have hfault : Operator.fault? (.comparison c) (some left.kind) =
        some (.unsupportedOperation c.symbol left.kind.name) := by
      cases hkind : left.kind <;>
        simp [hkind, Kind.isNumeric, Operator.fault?, Ty.name] at hother ⊢
    rw [matched_of_other hother, pure_bind, compared_of_none hof, hfault]
    exact .throw _

/-- **The code of an operator is typed**, on operands that it takes, unless there is none. -/
theorem ends_apply (op : Operator) (hc : op.check (some k) (some l) = .ok ())
    (hm : op.resultTy (some k) (some l) = some m) (hresult : Has m result b) (hl : Has k left b)
    (hr : Has l right b) :
    Ends Types (fun _ _ => True) (op.fault? (some k)) (apply op result left right) b := by
  obtain ⟨ht, -, -⟩ := Operator.takes_of_check hc
  cases op with
  | comparison c =>
    obtain rfl : Kind.boolean = m := Option.some.inj hm
    exact ends_comparison c ht hresult hl hr
  | arithmetic a =>
    obtain ⟨hk, hl'⟩ : k.isNumeric = true ∧ l.isNumeric = true := by
      simpa [Operator.takes, Ty.isNumeric] using ht
    obtain rfl : (Numeric.common k l).kind = m :=
      Option.some.inj ((Operator.resultTy_arithmetic a k l).symm.trans hm)
    have hversion : versionFor result.kind = Numeric.common k l := by
      rw [hresult.2]
      cases Numeric.common k l <;> rfl
    refine .andThen composes_types (ends_matched hl hr hk hl') fun p b₁ hstep hp => ?_
    rw [hversion]
    have hresult := hresult.types hstep
    refine .andThen composes_types (ends_two hresult hp.1 (by simp [Opcode.takes]))
      fun _ b₂ hstep' _ => ?_
    exact ends_two (hresult.types hstep') (hp.2.types hstep') (by simp [Opcode.takes])
  | realDivision =>
    obtain ⟨hk, hl'⟩ : k.isNumeric = true ∧ l.isNumeric = true := by
      simpa [Operator.takes, Ty.isNumeric] using ht
    obtain rfl : Kind.real = m := Option.some.inj hm
    refine .andThen composes_types (ends_asReal hl hk) fun left' b₁ hstep hleft => ?_
    refine .andThen composes_types (ends_asReal (hr.types hstep) hl')
      fun right' b₂ hstep' hright => ?_
    exact ends_three ((hresult.types hstep).types hstep') (hleft.types hstep') hright rfl
  | wholeDivision d =>
    obtain ⟨rfl, rfl⟩ : k = .integer ∧ l = .integer := by simpa [Operator.takes] using ht
    obtain rfl : Kind.integer = m := Option.some.inj hm
    cases d <;> exact ends_three hresult hl hr rfl
  | logical c =>
    obtain ⟨rfl, rfl⟩ : k = .boolean ∧ l = .boolean := by simpa [Operator.takes] using ht
    obtain rfl : Kind.boolean = m := Option.some.inj hm
    exact ends_three hresult hl hr rfl

/-- The value of a tree of this type: a registered variable of that kind, or none. -/
def Yields (ty : Ty) (r : Option Handle) (b : Builder) : Prop :=
  r.map Handle.kind = ty ∧ ∀ h, r = some h → b.table.Registers h

theorem Has.yields {h : Handle} (hh : Has k h b) : Yields (some k) (some h) b := by
  refine ⟨congrArg some hh.2, ?_⟩
  rintro _ ⟨⟩
  exact hh.1

theorem yields_none (b : Builder) : Yields none none b := ⟨rfl, fun _ h => nomatch h⟩

theorem Yields.has {r : Option Handle} (hy : Yields (some k) r b) :
    ∃ h, r = some h ∧ Has k h b := by
  obtain ⟨hk, hreg⟩ := hy
  obtain ⟨h, rfl, hhk⟩ := Option.map_eq_some_iff.mp hk
  exact ⟨h, rfl, hreg h rfl, hhk⟩

theorem ends_negated (hl : Has .boolean left b) :
    Ends Types (Yields (some .boolean)) none (negated left) b := by
  refine .andThen composes_types (ends_temp .boolean) fun result b₁ hstep hr => ?_
  refine .andThen composes_types (ends_two hr (hl.types hstep) rfl) fun _ b₂ hstep' _ => ?_
  exact .pure composes_types (hr.types hstep').yields

theorem ends_combined (op : Operator) (hc : op.check (some k) (some l) = .ok ())
    (hl : Has k left b) (hr : Has l right b) :
    Ends Types (Yields (op.resultTy (some k) (some l))) (op.fault? (some k))
      (combined op (op.resultTy (some k) (some l)) left right) b := by
  obtain ⟨m, hm⟩ := Option.ne_none_iff_exists'.mp
    (Operator.resultTy_ne_none op (some k) (some l))
  rw [hm]
  refine .andThen composes_types (ends_temp m) fun result b₁ hstep hresult => ?_
  refine .finish composes_types (ends_apply op hc hm hresult (hl.types hstep) (hr.types hstep))
    fun _ b₂ hstep' _ => ?_
  exact .pure composes_types (hresult.types hstep').yields

/-- A value that the target takes is copied by a typed instruction. -/
theorem ends_copy (ht : b.table.Registers result) (hl : Has k left b)
    (hk : Ty.accepts (some result.kind) (some k) = true) :
    Ends Types (fun _ _ => True) none (copy result left) b := by
  obtain ⟨n, m⟩ := result
  obtain ⟨n', k⟩ := left
  obtain ⟨hl, rfl⟩ := hl
  have htwo : ∀ {o : Opcode} {fits}, o.takes [m, k] = true → Ends Types (fun _ _ => True) none
      (append ⟨o, .two ⟨n, m⟩ ⟨n', k⟩, none, fits⟩) b := ends_two ⟨ht, rfl⟩ ⟨hl, rfl⟩
  have hcases : m = k ∨ (m = .real ∧ k = .integer) := by simpa [Ty.accepts] using hk
  rcases hcases with rfl | ⟨rfl, rfl⟩
  · cases m <;> exact htwo rfl
  · exact htwo rfl

/-- An operand of an accepted construct, and then what is done with its variable. -/
theorem ends_operand {β : Type} {x : Lowering (Option Handle)} {construct : String}
    {rest : Handle → Lowering β} {fault fault' : Option Error} {Q : β → Builder → Prop}
    (hx : Ends Types (Yields (some k)) fault x b)
    (hrest : ∀ h b₁, Types b b₁ → Has k h b₁ → Ends Types Q fault' (rest h) b₁) :
    Ends Types Q (fault.or fault') (x >>= fun r => needed construct r >>= rest) b := by
  refine .bind composes_types hx fun r b₁ hstep hy => ?_
  obtain ⟨h, rfl, hh⟩ := hy.has
  exact hrest h b₁ hstep hh

theorem ends_attach (l : Label) : Ends Types (fun _ _ => True) none (attach l) b :=
  ends_append (lasting_typed.carrier b.table l)

theorem ends_newLabel : Ends Types (fun _ _ => True) none newLabel b :=
  .of_ok (newLabel_apply b) (.takeLabel b) trivial

/-- A last step, and then no variable. -/
theorem ends_none {α : Type} {x : Lowering α} {Q : α → Builder → Prop} {fault : Option Error}
    (hx : Ends Types Q fault x b) :
    Ends Types (Yields none) fault (x >>= fun _ => pure none) b :=
  .finish composes_types hx fun _ b' _ _ => .pure composes_types (yields_none b')

end Lowering

/-! ## 3. Trees -/

namespace Tree
open Lowering Builder

variable {layout : ChoiceLayout} {b b' : Builder} {r : Option Handle}

theorem RegisteredIn.types {t : Tree} {b b' : Builder} (hr : t.RegisteredIn b.table)
    (hstep : Types b b') : t.RegisteredIn b'.table := fun g hg => hstep.registers (hr g hg)

theorem ends_leaving {condition : Handle} {l : Label} (hc : Has .boolean condition b) :
    Ends Types (fun _ _ => True) none (append (leaving condition l)) b := by
  obtain ⟨hreg, hk⟩ := hc
  exact ends_append (typed_of_registers (by simp [leaving, Operands.handles, hreg])
    (by simp [leaving, Operands.handles, Opcode.takes, hk]))

theorem ends_jumping (l : Label) : Ends Types (fun _ _ => True) none (append (jumping l)) b :=
  ends_append (lasting_typed.jumping b.table l)

variable {c a : Tree} {ty : Ty} {fault fault₁ fault₂ : Option Error}

/-- A choice ends with the fault of its condition or else of its branch. -/
theorem ends_choice (hc : Ends Types (Yields (some .boolean)) fault (c.lower layout) b)
    (ha : ∀ b', Types b b' → Ends Types (Yields ty) fault₁ (a.lower layout) b') :
    Ends Types (Yields none) (fault.or fault₁) ((Tree.choice c a).lower layout) b := by
  have hR := composes_types
  rw [lower_choice_layout]
  refine ends_operand hc fun condition b₁ hstep₁ hcond => ?_
  refine .andThen hR ends_newLabel fun l b₂ hstep₂ _ => ?_
  refine .andThen hR (ends_leaving (hcond.types hstep₂)) fun _ b₃ hstep₃ _ => ?_
  have hbranch := ha b₃ (hR.trans (hR.trans hstep₁ hstep₂) hstep₃)
  refine .finish hR hbranch.discard fun _ b₄ _ _ => ends_none (Q := fun _ _ => True) ?_
  unfold landing
  split
  · exact ends_attach l
  · exact .pure hR trivial

/-- The other branch is lowered in the structured layout only, and so is its fault. -/
theorem ends_otherBranch (l : Label)
    (ha : ∀ b', Types b b' → Ends Types (Yields ty) (a.lowered layout).fault? (a.lower layout) b') :
    Ends Types (fun _ _ => True)
      (if layout = .structured then a.lowered layout else .block []).fault?
      (otherBranch layout l a) b := by
  unfold otherBranch
  split
  · exact .andThen composes_types (ends_attach l) fun _ b₁ hstep _ => (ha b₁ hstep).discard.forget
  · rw [fault?_block]
    exact .pure composes_types trivial

/-- A choice with another branch ends with the first fault of condition and branches. -/
theorem ends_choiceElse {a₁ a₂ : Tree}
    (hc : Ends Types (Yields (some .boolean)) fault (c.lower layout) b)
    (h₁ : ∀ b', Types b b' → Ends Types (Yields ty) fault₁ (a₁.lower layout) b')
    (h₂ : ∀ l b', Types b b' → Ends Types (fun _ _ => True) fault₂ (otherBranch layout l a₂) b') :
    Ends Types (Yields none) (fault.or (fault₁.or fault₂))
      ((Tree.choiceElse c a₁ a₂).lower layout) b := by
  have hR := composes_types
  rw [lower_choiceElse_layout]
  refine ends_operand hc fun condition b₁ hstep₁ hcond => ?_
  refine .andThen hR ends_newLabel fun l b₂ hstep₂ _ => ?_
  refine .andThen hR ends_newLabel fun l' b₃ hstep₃ _ => ?_
  have hlabels := hR.trans hstep₂ hstep₃
  refine .andThen hR (ends_leaving (hcond.types hlabels)) fun _ b₄ hstep₄ _ => ?_
  have hhead := hR.trans hstep₁ (hR.trans hlabels hstep₄)
  refine .bind hR (h₁ b₄ hhead).discard fun _ b₅ hstep₅ _ => ?_
  refine .andThen hR (ends_jumping l') fun _ b₆ hstep₆ _ => ?_
  have hyes := hR.trans hhead (hR.trans hstep₅ hstep₆)
  exact .finish hR (h₂ l b₆ hyes) fun _ b₇ _ _ => ends_none (ends_attach l')

/-- A loop ends with the fault of its condition or else of its body. -/
theorem ends_loop
    (hc : ∀ b', Types b b' → Ends Types (Yields (some .boolean)) fault (c.lower layout) b')
    (ha : ∀ b', Types b b' → Ends Types (Yields ty) fault₁ (a.lower layout) b') :
    Ends Types (Yields none) (fault.or fault₁) ((Tree.loop c a).lower layout) b := by
  have hR := composes_types
  rw [lower_loop]
  refine .andThen hR ends_newLabel fun l b₁ hstep₁ _ => ?_
  refine .andThen hR ends_newLabel fun l' b₂ hstep₂ _ => ?_
  refine .andThen hR (ends_attach l) fun _ b₃ hstep₃ _ => ?_
  have hlabels := hR.trans (hR.trans hstep₁ hstep₂) hstep₃
  refine ends_operand (hc b₃ hlabels) fun condition b₄ hstep₄ hcond => ?_
  refine .andThen hR (ends_leaving hcond) fun _ b₅ hstep₅ _ => ?_
  have hhead := hR.trans hlabels (hR.trans hstep₄ hstep₅)
  refine .finish hR (ha b₅ hhead).discard fun _ b₆ _ _ => ?_
  exact .andThen hR (ends_jumping l) fun _ b₇ _ _ => ends_none (ends_attach l')

/-- **How lowering ends** on an accepted tree whose handles are registered: with the fault of what
the layout lowers of it, or with typed code and the value in a variable of the static type. -/
theorem lower_ends (layout : ChoiceLayout) (t : Tree) (hc : t.check = .ok ()) :
    ∀ {b : Builder}, t.RegisteredIn b.table →
      Ends Types (Yields t.staticType) (t.lowered layout).fault? (t.lower layout) b := by
  have hR := composes_types
  induction t using Tree.ind with
  | constant v =>
    intro b _
    rw [lowered, fault?_constant]
    exact .of_ok (lower_constant_iff.mpr ⟨rfl, rfl⟩) (.withTemp b v)
      (Has.yields ⟨b.table.registers_withTemp v, rfl⟩)
  | reference g =>
    intro b hr
    have hg : b.table.Registers g := hr g (reference_mem_handles g)
    rw [lowered, fault?_reference]
    exact .of_ok (lower_reference_iff.mpr ⟨g, hg, rfl, rfl⟩) (.refl b) (Has.yields ⟨hg, rfl⟩)
  | negation a iha =>
    intro b hr
    obtain ⟨hca, hta⟩ := check_negation_iff.mp hc
    have ha := iha hca (hr.of_child (c := a) (by simp [children]))
    rw [hta] at ha
    rw [lowered, fault?_negation, lower_negation, ← Option.or_none (o := (a.lowered layout).fault?)]
    exact ends_operand ha fun source b₁ _ hs => ends_negated hs
  | binary op a₁ a₂ ih₁ ih₂ =>
    intro b hr
    obtain ⟨hc₁, hc₂, hop⟩ := check_binary_iff.mp hc
    obtain ⟨-, ht₁, ht₂⟩ := Operator.takes_of_check hop
    obtain ⟨k, hk⟩ := Option.ne_none_iff_exists'.mp ht₁
    obtain ⟨l, hl⟩ := Option.ne_none_iff_exists'.mp ht₂
    have h₁ := ih₁ hc₁ (hr.of_child (c := a₁) (by simp [children]))
    rw [hk] at h₁
    rw [lowered, fault?_binary, staticType_lowered, lower_binary, staticType, hk, hl]
    rw [hk, hl] at hop
    refine ends_operand h₁ fun left b₁ hstep hleft => ?_
    have h₂ := ih₂ hc₂ ((hr.of_child (c := a₂) (by simp [children])).types hstep)
    rw [hl] at h₂
    exact ends_operand h₂ fun right b₂ hstep' hright =>
      ends_combined op hop (hleft.types hstep') hright
  | assign g a iha =>
    intro b hr
    obtain ⟨hca, htake⟩ := check_assign_iff.mp hc
    obtain ⟨k, hk⟩ : ∃ k, a.staticType = some k := by
      cases hs : a.staticType with
      | none => simp [hs, Ty.accepts] at htake
      | some k => exact ⟨k, rfl⟩
    have ha := iha hca (hr.of_child (c := a) (by simp [children]))
    rw [hk] at ha htake
    rw [lowered, fault?_assign, lower, ← Option.or_none (o := (a.lowered layout).fault?)]
    exact ends_operand ha fun source b₁ hstep hs =>
      ends_none (ends_copy (hstep.registers hr.target) hs htake)
  | write a n iha =>
    intro b hr
    obtain ⟨hca, hta⟩ := check_write_iff.mp hc
    obtain ⟨k, hk⟩ := Option.ne_none_iff_exists'.mp hta
    have ha := iha hca (hr.of_child (c := a) (by simp [children]))
    rw [hk] at ha
    rw [lowered, fault?_write, lower_write, ← Option.or_none (o := (a.lowered layout).fault?)]
    refine ends_operand ha fun source b₁ _ hs => ends_none (ends_append ?_)
    cases n <;> exact typed_of_registers (by simp [writing, Operands.handles, hs.1]) rfl
  | choice c a ihc iha =>
    intro b hr
    obtain ⟨hcc, htc, hca⟩ := check_choice_iff.mp hc
    have hc := ihc hcc (hr.of_child (c := c) (by simp [children]))
    have hra := hr.of_child (c := a) (by simp [children])
    rw [htc] at hc
    rw [lowered, fault?_choice]
    exact ends_choice hc fun b₁ hstep => iha hca (hra.types hstep)
  | choiceElse c a₁ a₂ ihc ih₁ ih₂ =>
    intro b hr
    obtain ⟨hcc, htc, hc₁, hc₂⟩ := check_choiceElse_iff.mp hc
    have hc := ihc hcc (hr.of_child (c := c) (by simp [children]))
    have hr₁ := hr.of_child (c := a₁) (by simp [children])
    have hr₂ := hr.of_child (c := a₂) (by simp [children])
    rw [htc] at hc
    rw [lowered, fault?_choiceElse]
    refine ends_choiceElse hc (fun b₁ hstep => ih₁ hc₁ (hr₁.types hstep)) fun l b₁ hstep => ?_
    exact ends_otherBranch l fun b₂ hstep' => ih₂ hc₂ ((hr₂.types hstep).types hstep')
  | loop c a ihc iha =>
    intro b hr
    obtain ⟨hcc, htc, hca⟩ := check_loop_iff.mp hc
    have hrc := hr.of_child (c := c) (by simp [children])
    have hra := hr.of_child (c := a) (by simp [children])
    have hc := fun b₁ hstep => ihc hcc (b := b₁) (hrc.types hstep)
    rw [htc] at hc
    rw [lowered, fault?_loop]
    exact ends_loop hc fun b₁ hstep => iha hca (hra.types hstep)
  | block ts ih =>
    intro b hr
    have all : ∀ us, us ⊆ ts → ∀ {b : Builder}, (Tree.block ts).RegisteredIn b.table →
        Ends Types (fun _ _ => True) ((us.map (lowered layout)).findSome? fault?)
          (lowerAll layout us) b := by
      intro us
      induction us with
      | nil => exact fun _ _ _ => .pure hR trivial
      | cons u us ihus =>
        intro hus b hr
        have hu : u ∈ ts := hus List.mem_cons_self
        rw [List.map_cons, findSome?_cons_or, lowerAll]
        refine .bind hR (ih u hu (check_block_iff.mp hc u hu) (hr.of_child hu)).discard
          fun _ b₁ hstep _ => ?_
        exact ihus (List.subset_of_cons_subset hus) (hr.types hstep)
    rw [lowered, loweredAll_eq, fault?_block, lower]
    exact ends_none (all ts (List.Subset.refl ts) hr)

/-- **Lowering emits typed code**, in both layouts, on an accepted tree whose handles are
registered.  The kinds that the resulting table declares for the operands of a new instruction are
kinds that the opcode takes.  The value of the tree is in a registered variable whose kind is the
tree's static type, and there is none if the tree has none.  The builder is any, so this holds of
every node that is lowered on the way. -/
theorem lower_typed {layout : ChoiceLayout} {t : Tree} {b b' : Builder} {r : Option Handle}
    (hc : t.check = .ok ()) (hr : t.RegisteredIn b.table) (h : t.lower layout b = .ok r b') :
    (∃ seg, b'.code = b.code ++ seg ∧ ∀ i ∈ seg, i.Typed b'.table) ∧
      r.map Handle.kind = t.staticType ∧ ∀ g, r = some g → b'.table.Registers g := by
  obtain ⟨-, hstep, hy⟩ := (lower_ends layout t hc hr).ok h
  exact ⟨hstep.code, hy⟩

/-- The theorem at work on conversions of both kinds, on a division and on a copy of a string,
lowered in the legacy layout after another instruction. -/
theorem lower_typed_conversions :
    let n : Handle := ⟨"n", .integer⟩
    let x : Handle := ⟨"x", .real⟩
    let s : Handle := ⟨"s", .string⟩
    let half : Tree := .binary .realDivision (.reference n) (.constant (.integer 2))
    let t : Tree := .choiceElse (.binary (.comparison .less) (.reference n) (.reference x))
      (.block [.assign x (.binary (.arithmetic .multiply) half (.reference n)),
        .assign x (.reference n)])
      (.assign s (.constant (.string "left out")))
    let b : Builder := ⟨⟨[⟨"n", .integer, .integer 3⟩, ⟨"x", .real, .real 0⟩,
      ⟨"s", .string, .string ""⟩], "_tempVar", 0⟩, 5, [.carrier ⟨4⟩]⟩
    ∃ r b', t.lower .legacy b = .ok r b' ∧ b'.code.length = 14 ∧
      ∀ i ∈ b'.code.drop 1, i.Typed b'.table := by
  intro n x s half t b
  have hrun : (match t.lower .legacy b with
      | .ok _ b' => b'.code.length == 14
      | .error _ _ => false) = true := by decide +kernel
  obtain ⟨r, b', h, hn⟩ : ∃ r b', t.lower .legacy b = .ok r b' ∧ b'.code.length = 14 := by
    cases h : t.lower .legacy b with
    | ok r b' => exact ⟨r, b', rfl, by simpa [h] using hrun⟩
    | error e b' => simp [h] at hrun
  have hr : t.RegisteredIn b.table := by
    intro h hh
    have hnames : ∀ h ∈ t.handles, h = n ∨ h = x ∨ h = s := by decide
    rcases hnames h hh with rfl | rfl | rfl <;> rfl
  have hc : t.check = .ok () := rfl
  obtain ⟨⟨seg, hseg, htyped⟩, -, -⟩ := lower_typed hc hr h
  refine ⟨r, b', h, hn, ?_⟩
  rw [hseg]
  exact htyped

end Tree
end ProcTree
