/-
# Lowering twice, side by side

Two builders may differ in what their tables and their code are like and still take the same steps:
the kinds of variables decide what is emitted, and their names do not.  So if both take an
instruction, the second one with other names in it, and both obtain a temporary of a kind, then they
stay side by side through every operator, and if they find the variables of a tree alike, through
the lowering of the tree.  Their tables may keep the variables in different registries.

* `Instruction.rename`: the instruction on variables of other names.
* `Lowering.Corresponds`: what a relation between builders has to respect.
* `Lowering.Corresponds.apply`: the code of an operator, on renamed variables.
* `Tree.lower_relates`: related builders stay related through the lowering of a tree.
* `Tree.compile_relates`: and compilations end alike if the codes pair up alike.
-/
import ProcTree.Proofs.Lowering.Steps
import ProcTree.Proofs.Operator

namespace ProcTree

variable {δ κ : Type} {ρ : String → String}

/-! ## 1. Other names -/

/-- The handle of a variable of the same kind with another name. -/
def Handle.rename (ρ : String → String) (h : Handle) : Handle := ⟨ρ h.name, h.kind⟩

@[simp] theorem Handle.map_rename_id (a : Option Handle) : a.map (Handle.rename id) = a := by
  cases a <;> rfl

/-- The variable with another name. -/
def Variable.rename (ρ : String → String) (v : Variable) : Variable := ⟨ρ v.name, v.kind, v.value⟩

/-- The operands with other names for the variables. -/
def Operands.rename (ρ : String → String) : Operands → Operands
  | .empty => .empty
  | .one a => .one (a.rename ρ)
  | .two a b => .two (a.rename ρ) (b.rename ρ)
  | .three a b c => .three (a.rename ρ) (b.rename ρ) (c.rename ρ)
  | .target l => .target l
  | .oneTarget a l => .oneTarget (a.rename ρ) l

@[simp] theorem Operands.shape_rename (ρ : String → String) (os : Operands) :
    (os.rename ρ).shape = os.shape := by cases os <;> rfl

@[simp] theorem Operands.target?_rename (ρ : String → String) (os : Operands) :
    (os.rename ρ).target? = os.target? := by cases os <;> rfl

namespace Instruction

/-- The same instruction on variables of other names. -/
def rename (ρ : String → String) (i : Instruction) : Instruction :=
  ⟨i.opcode, i.operands.rename ρ, i.label, (Operands.shape_rename ρ _).trans i.fits⟩

@[simp] theorem label_rename (ρ : String → String) (i : Instruction) :
    (i.rename ρ).label = i.label := rfl

@[simp] theorem target?_rename (ρ : String → String) (i : Instruction) :
    (i.rename ρ).target? = i.target? := Operands.target?_rename ρ i.operands

@[simp] theorem rename_id (i : Instruction) : i.rename id = i := by
  obtain ⟨o, os, l, fits⟩ := i
  cases os <;> rfl

end Instruction

/-! ## 2. Operators -/

namespace Lowering

variable [Registry δ] [Registry κ] {R : Builder δ → Builder κ → Prop}
  {left right result source target : Handle}

/-- Builders in this relation stay in it if both take an instruction, the second one with the new
names, or if both obtain a temporary of one kind, whose name in the second one is the new name of
the other. -/
structure Corresponds (ρ : String → String) (R : Builder δ → Builder κ → Prop) : Prop where
  append : ∀ i : Instruction, Relates R Eq (append i) (append (i.rename ρ))
  temp : ∀ k, Relates R (fun g h => g.rename ρ = h) (temp (some k)) (temp (some k))

namespace Corresponds

variable (hR : Corresponds ρ R)
include hR

theorem asReal (h : Handle) :
    Relates R (fun g h => g.rename ρ = h) (asReal h) (asReal (h.rename ρ)) := by
  by_cases hk : h.kind = .integer
  · rw [Lowering.asReal, Lowering.asReal, if_pos hk, if_pos (show (h.rename ρ).kind = _ from hk)]
    refine (hR.temp .real).bind ?_
    rintro r _ rfl
    exact (hR.append _).bind fun _ _ _ => .pure rfl
  · rw [Lowering.asReal, Lowering.asReal, if_neg hk, if_neg (show ¬ (h.rename ρ).kind = _ from hk)]
    exact .pure rfl

theorem matched (left right : Handle) :
    Relates R (fun p q => p.1.rename ρ = q.1 ∧ p.2.rename ρ = q.2) (matched left right)
      (matched (left.rename ρ) (right.rename ρ)) := by
  obtain ⟨x, j⟩ := left
  obtain ⟨y, k⟩ := right
  -- The kinds decide which side is converted, if any is.
  cases j <;> cases k <;> first
    | exact .pure ⟨rfl, rfl⟩
    | exact (hR.asReal _).bind fun _ _ h => .pure ⟨h, rfl⟩
    | exact (hR.asReal _).bind fun _ _ h => .pure ⟨rfl, h⟩

/-- **The code of an operator** is the same but for the names. -/
theorem apply (op : Operator) (result left right : Handle) :
    Relates R Eq (apply op result left right)
      (apply op (result.rename ρ) (left.rename ρ) (right.rename ρ)) := by
  cases op with
  | comparison c =>
    rw [apply_comparison, apply_comparison]
    refine (hR.matched left right).bind ?_
    rintro ⟨l, r⟩ ⟨_, _⟩ ⟨rfl, rfl⟩
    cases hn : Numeric.ofKind? l.kind with
    | some n =>
      rw [compared_of_some hn, compared_of_some (show Numeric.ofKind? (l.rename ρ).kind = _ from hn)]
      exact hR.append _
    | none =>
      rw [compared_of_none hn, compared_of_none (show Numeric.ofKind? (l.rename ρ).kind = _ from hn)]
      exact .throw _
  | arithmetic a =>
    refine (hR.matched left right).bind ?_
    rintro ⟨l, r⟩ ⟨_, _⟩ ⟨rfl, rfl⟩
    exact (hR.append _).bind fun _ _ _ => hR.append _
  | realDivision =>
    refine (hR.asReal left).bind ?_
    rintro l _ rfl
    refine (hR.asReal right).bind ?_
    rintro r _ rfl
    exact hR.append _
  | wholeDivision d => cases d <;> exact hR.append _
  | logical c => exact hR.append _

theorem negated (source : Handle) :
    Relates R (fun a b => a.map (Handle.rename ρ) = b) (negated source)
      (negated (source.rename ρ)) := by
  refine (hR.temp .boolean).bind ?_
  rintro r _ rfl
  exact (hR.append _).bind fun _ _ _ => .pure rfl

theorem combined (op : Operator) (s t : Ty) (left right : Handle) :
    Relates R (fun a b => a.map (Handle.rename ρ) = b) (combined op (op.resultTy s t) left right)
      (combined op (op.resultTy s t) (left.rename ρ) (right.rename ρ)) := by
  obtain ⟨k, hk⟩ := Option.ne_none_iff_exists'.mp (Operator.resultTy_ne_none op s t)
  rw [hk]
  refine (hR.temp k).bind ?_
  rintro r _ rfl
  exact (hR.apply op r left right).bind fun _ _ _ => .pure rfl

/-- An assignment may fail, and then it names the target. -/
theorem copy (source : Handle) (ht : target.rename ρ = target) :
    Relates R Eq (copy target source) (copy target (source.rename ρ)) := by
  have push : ∀ {o : Opcode} {fits}, Relates R Eq
      (Lowering.append ⟨o, .two target source, none, fits⟩)
      (Lowering.append ⟨o, .two target (source.rename ρ), none, fits⟩) := by
    intro o fits
    have h := hR.append ⟨o, .two target source, none, fits⟩
    have he : (⟨o, .two target source, none, fits⟩ : Instruction).rename ρ =
        ⟨o, .two target (source.rename ρ), none, fits⟩ := by
      simp only [Instruction.rename, Operands.rename, ht]
    rwa [he] at h
  obtain ⟨x, j⟩ := target
  obtain ⟨y, k⟩ := source
  cases j <;> cases k <;> first
    | exact push
    | exact .throw _

omit hR [Registry δ] [Registry κ] in
theorem needed (construct : String) (a : Option Handle) :
    Relates R (fun g h => g.rename ρ = h) (needed construct a)
      (needed construct (a.map (Handle.rename ρ))) := by
  cases a with
  | none => exact .throw _
  | some h => exact .pure rfl

end Corresponds
end Lowering

/-! ## 3. Trees -/

namespace Tree
open Lowering

variable [Registry δ] [Registry κ] {R : Builder δ → Builder κ → Prop} {layout : ChoiceLayout}
  {c a a₁ a₂ : Tree}

/-- Builders in this relation stay in it through every step of lowering but lookups. -/
structure Conveys (ρ : String → String) (R : Builder δ → Builder κ → Prop) : Prop
    extends Corresponds ρ R where
  tempOf : ∀ v, Relates R (fun g h => g.rename ρ = h) (tempOf v) (tempOf v)
  newLabel : Relates R Eq newLabel newLabel

/-- The variable has its old name, and related builders find it alike. -/
def Finds (ρ : String → String) (R : Builder δ → Builder κ → Prop) (g : Handle) : Prop :=
  g.rename ρ = g ∧ Relates R (fun g h => g.rename ρ = h) (lookup g.name) (lookup g.name)

/-- Lowering the tree from related builders gives a renamed variable, if any, and leaves them
related. -/
def Mirrored (ρ : String → String) (R : Builder δ → Builder κ → Prop) (layout : ChoiceLayout)
    (t : Tree) : Prop :=
  Relates R (fun a b => a.map (Handle.rename ρ) = b) (t.lower layout) (t.lower layout)

/-- An operand, and then what is done with its variable. -/
theorem Mirrored.operand {α β : Type} {M : α → β → Prop} {construct : String}
    {f : Handle → LoweringOn δ α} {g : Handle → LoweringOn κ β} (ha : Mirrored ρ R layout a)
    (hrest : ∀ h, Relates R M (f h) (g (h.rename ρ))) :
    Relates R M (a.lower layout >>= fun r => needed construct r >>= f)
      (a.lower layout >>= fun r => needed construct r >>= g) := by
  refine ha.bind ?_
  rintro r _ rfl
  refine (Corresponds.needed construct r).bind ?_
  rintro h _ rfl
  exact hrest h

omit [Registry δ] [Registry κ] in
/-- A last step, and then no variable. -/
theorem relates_none {α : Type} {M : α → α → Prop} {x : LoweringOn δ α} {y : LoweringOn κ α}
    (h : Relates R M x y) :
    Relates R (fun a b => a.map (Handle.rename ρ) = b) (x >>= fun _ => pure none)
      (y >>= fun _ => pure none) :=
  h.bind fun _ _ _ => .pure rfl

section
variable (hR : Conveys ρ R)
include hR

/-- A step whose result is the same on both sides, and then what is done with it. -/
theorem relates_label {α β : Type} {M : α → β → Prop} {f : Label → LoweringOn δ α}
    {g : Label → LoweringOn κ β} (hrest : ∀ l, Relates R M (f l) (g l)) :
    Relates R M (newLabel >>= f) (newLabel >>= g) := by
  refine hR.newLabel.bind ?_
  rintro l _ rfl
  exact hrest l

theorem relates_attach (l : Label) : Relates R Eq (attach l) (attach l) :=
  hR.append (.carrier l)

theorem mirrored_choice (hc : Mirrored ρ R layout c) (ha : Mirrored ρ R layout a) :
    Mirrored ρ R layout (.choice c a) := by
  unfold Mirrored
  rw [lower_choice_layout, lower_choice_layout]
  refine hc.operand fun condition => relates_label hR fun otherwise => ?_
  refine (hR.append (leaving condition otherwise)).bind fun _ _ _ => ha.discard.bind fun _ _ _ => ?_
  refine relates_none (M := Eq) ?_
  unfold landing
  split
  · exact relates_attach hR otherwise
  · exact .pure rfl

theorem mirrored_choiceElse (hc : Mirrored ρ R layout c) (h₁ : Mirrored ρ R layout a₁)
    (h₂ : Mirrored ρ R layout a₂) : Mirrored ρ R layout (.choiceElse c a₁ a₂) := by
  unfold Mirrored
  rw [lower_choiceElse_layout, lower_choiceElse_layout]
  refine hc.operand fun condition => relates_label hR fun otherwise =>
    relates_label hR fun done => ?_
  refine (hR.append (leaving condition otherwise)).bind fun _ _ _ => h₁.discard.bind fun _ _ _ => ?_
  refine (hR.append (jumping done)).bind fun _ _ _ => ?_
  refine .bind (M := Eq) ?_ fun _ _ _ => relates_none (relates_attach hR done)
  unfold otherBranch
  split
  · exact (relates_attach hR otherwise).bind fun _ _ _ => h₂.discard
  · exact .pure rfl

theorem mirrored_loop (hc : Mirrored ρ R layout c) (ha : Mirrored ρ R layout a) :
    Mirrored ρ R layout (.loop c a) := by
  unfold Mirrored
  rw [lower_loop, lower_loop]
  refine relates_label hR fun begin => relates_label hR fun done => ?_
  refine (relates_attach hR begin).bind fun _ _ _ => hc.operand fun condition => ?_
  refine (hR.append (leaving condition done)).bind fun _ _ _ => ha.discard.bind fun _ _ _ => ?_
  exact (hR.append (jumping begin)).bind fun _ _ _ => relates_none (relates_attach hR done)

/-- **Related builders stay related** through the lowering of a tree whose variables they find
alike. -/
theorem lower_relates (layout : ChoiceLayout) (t : Tree) (ht : ∀ g ∈ t.handles, Finds ρ R g) :
    Mirrored ρ R layout t := by
  have sub : ∀ {u v : Tree}, u ∈ v.children → (∀ g ∈ v.handles, Finds ρ R g) →
      ∀ g ∈ u.handles, Finds ρ R g := fun hu hv g hg => hv g (handles_subset_of_child hu hg)
  induction t using Tree.ind with
  | constant v =>
    refine (hR.tempOf v).bind ?_
    rintro h _ rfl
    exact .pure rfl
  | reference g =>
    refine (ht g (reference_mem_handles g)).2.bind ?_
    rintro h _ rfl
    exact .pure rfl
  | negation a iha =>
    unfold Mirrored
    rw [lower_negation, lower_negation]
    exact (iha (sub (by simp [children]) ht)).operand hR.negated
  | binary op a₁ a₂ ih₁ ih₂ =>
    unfold Mirrored
    rw [lower_binary, lower_binary]
    refine (ih₁ (sub (by simp [children]) ht)).operand fun left => ?_
    exact (ih₂ (sub (by simp [children]) ht)).operand fun right => hR.combined op _ _ left right
  | assign g a iha =>
    have hg := (ht g (targets_subset_handles _ (target_mem_targets g a))).1
    unfold Mirrored
    rw [lower, lower]
    exact (iha (sub (by simp [children]) ht)).operand fun source =>
      relates_none (hR.copy source hg)
  | write a n iha =>
    unfold Mirrored
    rw [lower_write, lower_write]
    refine (iha (sub (by simp [children]) ht)).operand fun source => relates_none (M := Eq) ?_
    cases n <;> exact hR.append _
  | choice c a ihc iha =>
    exact mirrored_choice hR (ihc (sub (by simp [children]) ht)) (iha (sub (by simp [children]) ht))
  | choiceElse c a₁ a₂ ihc ih₁ ih₂ =>
    exact mirrored_choiceElse hR (ihc (sub (by simp [children]) ht))
      (ih₁ (sub (by simp [children]) ht)) (ih₂ (sub (by simp [children]) ht))
  | loop c a ihc iha =>
    exact mirrored_loop hR (ihc (sub (by simp [children]) ht)) (iha (sub (by simp [children]) ht))
  | block ts ih =>
    have all : ∀ us, us ⊆ ts → Relates R Eq (lowerAll layout us) (lowerAll layout us) := by
      intro us
      induction us with
      | nil => exact fun _ => .pure rfl
      | cons u us ihus =>
        intro hus
        have hu : u ∈ (Tree.block ts).children := hus List.mem_cons_self
        exact (ih u hu (sub hu ht)).discard.bind
          fun _ _ _ => ihus (List.subset_of_cons_subset hus)
    unfold Mirrored
    rw [lower, lower]
    exact relates_none (all ts (List.Subset.refl ts))

end

/-- **Two compilations end alike** if the lowerings do, and leave builders that are checked alike
and have related tables.  The tables at the start are related as well, which matters for a tree that
is rejected. -/
theorem compile_relates {T : Table δ → Table κ → Prop} {Q : Builder δ → Builder κ → Prop}
    {M : Option Handle → Option Handle → Prop} {S : Table δ} {L : Table κ} {t : Tree}
    {options : Options} (hstart : T S L)
    (hlower : Alike Q (fun a b a' b' => M a a' ∧ Q b b') (t.lower options.layout (.ofTable S))
      (t.lower options.layout (.ofTable L)))
    (htable : ∀ {b b'}, Q b b' → T b.table b'.table)
    (hcheck : ∀ {b b'}, Q b b' → b'.program.check = b.program.check) :
    Alike T (fun p s q l => ∃ b b', Q b b' ∧ p = b.program ∧ q = b'.program ∧ s = b.table ∧
        l = b'.table)
      (t.compile options S) (t.compile options L) := by
  cases hc : t.check with
  | error e =>
    rw [compile_of_rejected hc, compile_of_rejected hc]
    exact .error hstart
  | ok =>
    generalize hs : t.lower options.layout (.ofTable S) = p at hlower
    generalize hl : t.lower options.layout (.ofTable L) = q at hlower
    cases hlower with
    | error hQ =>
      rw [compile_of_error hc hs, compile_of_error hc hl]
      exact .error (htable hQ)
    | @ok _ b _ _ hresult =>
      obtain ⟨-, hQ⟩ := hresult
      have hsame := hcheck hQ
      by_cases hfail : options.pairLabels = true ∧ ∃ e, b.program.check = .error e
      · obtain ⟨hp, e, he⟩ := hfail
        rw [compile_of_unpaired hc hs hp he, compile_of_unpaired hc hl hp (hsame.trans he)]
        exact .error (htable hQ)
      · have hpass : options.pairLabels = true → b.program.check = .ok () := by
          intro hp
          cases he : b.program.check with
          | ok => rfl
          | error e => exact absurd ⟨hp, e, he⟩ hfail
        rw [compile_of_ok hc hs hpass, compile_of_ok hc hl fun hp => hsame.trans (hpass hp)]
        exact .ok ⟨_, _, hQ, rfl, rfl, rfl, rfl⟩

end Tree
end ProcTree
