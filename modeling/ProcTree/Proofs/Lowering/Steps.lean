/-
# Steps of lowering, one at a time

Lowering changes a builder in three ways: it takes a label, registers a temporary, or adds an
instruction.  Section 1 gives each step as an equation, section 2 the code of an operator once its
operands are variables, and section 3 the code of each node in terms of the code of its children.
Later files read these equations and not the definitions.
-/
import ProcTree.Lowering
import ProcTree.Proofs.Outcome
import ProcTree.Proofs.Tree

namespace ProcTree

/-! ## 1. Builders and single steps -/

variable {δ : Type}

namespace Builder

/-- The builder with one more instruction. -/
def push (b : Builder δ) (i : Instruction) : Builder δ := { b with code := b.code ++ [i] }

/-- The builder with one more temporary, which holds this value. -/
def withTemp [Registry δ] (b : Builder δ) (v : Value) : Builder δ :=
  { b with table := b.table.withTemp v }

/-- The next label. -/
def label (b : Builder δ) : Label := ⟨UInt64.ofNat b.nextLabel⟩

/-- The builder after its next label was taken. -/
def takeLabel (b : Builder δ) : Builder δ := { b with nextLabel := b.nextLabel + 1 }

/-- The name of the next temporary. -/
def freshName [Registry δ] (b : Builder δ) : String := b.table.freshName

@[simp] theorem code_push (b : Builder δ) (i : Instruction) : (b.push i).code = b.code ++ [i] := rfl
theorem length_push (b : Builder δ) (i : Instruction) :
    (b.push i).code.length = b.code.length + 1 := by simp

@[simp] theorem table_push (b : Builder δ) (i : Instruction) : (b.push i).table = b.table := rfl
@[simp] theorem nextLabel_push (b : Builder δ) (i : Instruction) :
    (b.push i).nextLabel = b.nextLabel := rfl
@[simp] theorem code_withTemp [Registry δ] (b : Builder δ) (v : Value) :
    (b.withTemp v).code = b.code := rfl
@[simp] theorem table_withTemp [Registry δ] (b : Builder δ) (v : Value) :
    (b.withTemp v).table = b.table.withTemp v := rfl
@[simp] theorem code_takeLabel (b : Builder δ) : b.takeLabel.code = b.code := rfl
@[simp] theorem nextLabel_takeLabel (b : Builder δ) : b.takeLabel.nextLabel = b.nextLabel + 1 := rfl

end Builder

namespace Lowering

variable {b b' : Builder} {h : Handle}

theorem append_apply (i : Instruction) (b : Builder δ) : append i b = .ok () (b.push i) := rfl

theorem append_eq_ok_iff {i : Instruction} : append i b = .ok () b' ↔ b' = b.push i := by
  rw [append_apply]
  simp [eq_comm]

theorem attach_apply (l : Label) (b : Builder δ) : attach l b = .ok () (b.push (.carrier l)) := rfl

theorem newLabel_apply (b : Builder δ) : newLabel b = .ok b.label b.takeLabel := rfl

theorem tempOf_apply [Registry δ] (v : Value) (b : Builder δ) :
    tempOf v b = .ok ⟨b.freshName, v.kind⟩ (b.withTemp v) := rfl

theorem temp_some [Registry δ] (k : Kind) (b : Builder δ) :
    temp (some k) b = .ok ⟨b.freshName, k⟩ (b.withTemp (.zero k)) := by
  have hget : (get : LoweringOn δ (Builder δ)) b = .ok b b := rfl
  rw [temp, bind_of_ok hget, Table.obtainTemp_some]
  rfl

theorem temp_none [Registry δ] (b : Builder δ) :
    temp none b = .error (.untypedVariable b.freshName)
      { b with table := { b.table with nextTemp := b.table.freeTemp + 1 } } := rfl

theorem lookup_of_ok [Registry δ] {b : Builder δ} {name : String}
    (hl : b.table.lookup name = .ok h) : lookup name b = .ok h b := by
  have hget : (get : LoweringOn δ (Builder δ)) b = .ok b b := rfl
  rw [lookup, bind_of_ok hget, hl]
  rfl

theorem lookup_of_error [Registry δ] {b : Builder δ} {name : String} {e : Error}
    (hl : b.table.lookup name = .error e) : lookup name b = .error e b := by
  have hget : (get : LoweringOn δ (Builder δ)) b = .ok b b := rfl
  rw [lookup, bind_of_ok hget, hl]
  rfl

theorem lookup_eq_ok_iff {name : String} :
    lookup name b = .ok h b' ↔ b.table.lookup name = .ok h ∧ b' = b := by
  cases hl : b.table.lookup name with
  | ok g => simp [lookup_of_ok hl, eq_comm]
  | error e => simp [lookup_of_error hl]

theorem needed_eq_ok_iff {construct : String} {r : Option Handle} :
    needed construct r b = .ok h b' ↔ r = some h ∧ b' = b := by
  cases r <;> simp [needed, fail, eq_comm]

/-! ## 2. Conversions and operators -/

/-- An integer is copied into a new real temporary; anything else is left. -/
theorem asReal_apply (h : Handle) (b : Builder) :
    asReal h b = if h.kind = .integer then
        .ok ⟨b.freshName, .real⟩ ((b.withTemp (.zero .real)).push
          ⟨.widen, .two ⟨b.freshName, .real⟩ h, none, rfl⟩)
      else .ok h b := by
  unfold asReal
  split
  · rw [bind_of_ok (temp_some .real b)]
    rfl
  · rfl

/-- The instruction of a comparison, which needs numbers. -/
def compared (c : Comparison) (result left right : Handle) : LoweringOn δ Unit :=
  match Numeric.ofKind? left.kind with
  | some n => emit (.compare n c) (.three result left right)
  | none => fail (.unsupportedOperation c.symbol left.kind.name)

theorem apply_comparison [Registry δ] (c : Comparison) (result left right : Handle) :
    (apply (.comparison c) result left right : LoweringOn δ Unit) =
      (matched left right >>= fun p => compared c result p.1 p.2) := rfl

theorem compared_of_some {c : Comparison} {result left right : Handle} {n : Numeric}
    (hn : Numeric.ofKind? left.kind = some n) :
    (compared c result left right : LoweringOn δ Unit) =
      append ⟨.compare n c, .three result left right, none, rfl⟩ := by
  rw [compared, hn]
  rfl

theorem compared_of_none {c : Comparison} {result left right : Handle}
    (hn : Numeric.ofKind? left.kind = none) :
    (compared c result left right : LoweringOn δ Unit) =
      fail (.unsupportedOperation c.symbol left.kind.name) := by
  rw [compared, hn]

/-- The result of a negation: a new boolean temporary and the instruction that fills it. -/
def negated [Registry δ] (source : Handle) : LoweringOn δ (Option Handle) := do
  let result ← temp (some .boolean)
  emit .negate (.two result source)
  return some result

/-- The result of an operator: a new temporary and the instructions that fill it. -/
def combined [Registry δ] (op : Operator) (ty : Ty) (left right : Handle) :
    LoweringOn δ (Option Handle) := do
  let result ← temp ty
  apply op result left right
  return some result

theorem negated_apply (source : Handle) (b : Builder) :
    negated source b = .ok (some ⟨b.freshName, .boolean⟩)
      ((b.withTemp (.zero .boolean)).push
        ⟨.negate, .two ⟨b.freshName, .boolean⟩ source, none, rfl⟩) := by
  rw [negated, bind_of_ok (temp_some .boolean b)]
  rfl

theorem combined_eq_ok_iff {op : Operator} {k : Kind} {left right : Handle} {r : Option Handle} :
    combined op (some k) left right b = .ok r b' ↔
      r = some ⟨b.freshName, k⟩ ∧
        apply op ⟨b.freshName, k⟩ left right (b.withTemp (.zero k)) = .ok () b' := by
  rw [combined, bind_of_ok (temp_some k b), bind_eq_ok_iff]
  constructor
  · rintro ⟨⟨⟩, b₁, happ, hp⟩
    cases hp
    exact ⟨rfl, happ⟩
  · rintro ⟨rfl, happ⟩
    exact ⟨(), b', happ, rfl⟩

end Lowering

/-! ## 3. Nodes -/

namespace Tree
open Lowering

variable {layout : ChoiceLayout} {b b' : Builder} {r : Option Handle}

/-- The instruction of an output. -/
def writing (newline : Bool) (source : Handle) : Instruction :=
  if newline then ⟨.writeLine, .one source, none, Operands.shape_one source⟩
  else ⟨.write, .one source, none, Operands.shape_one source⟩

/-- The jump that leaves a construct whose condition is false. -/
def leaving (condition : Handle) (l : Label) : Instruction :=
  ⟨.gotoUnless, .oneTarget condition l, none, Operands.shape_oneTarget condition l⟩

/-- The jump to a label. -/
def jumping (l : Label) : Instruction := ⟨.goto, .target l, none, Operands.shape_target l⟩

theorem lower_negation [Registry δ] (a : Tree) :
    ((Tree.negation a).lower layout : LoweringOn δ (Option Handle)) = (do
      let source ← needed negationSymbol (← a.lower layout)
      negated source) := rfl

theorem lower_binary [Registry δ] (op : Operator) (a₁ a₂ : Tree) :
    ((Tree.binary op a₁ a₂).lower layout : LoweringOn δ (Option Handle)) = (do
      let left ← needed op.symbol (← a₁.lower layout)
      let right ← needed op.symbol (← a₂.lower layout)
      combined op (op.resultTy a₁.staticType a₂.staticType) left right) := rfl

theorem lower_write [Registry δ] (a : Tree) (n : Bool) :
    ((Tree.write a n).lower layout : LoweringOn δ (Option Handle)) = (do
      let source ← needed (if n then "writeln" else "write") (← a.lower layout)
      append (writing n source)
      return none) := by
  cases n <;> rfl

theorem lower_choice (c a : Tree) : (Tree.choice c a).lower .structured = (do
    let condition ← needed "if" (← c.lower .structured)
    let otherwise ← newLabel
    append (leaving condition otherwise)
    discard (a.lower .structured)
    attach otherwise
    return none) := rfl

theorem lower_choiceElse (c a₁ a₂ : Tree) : (Tree.choiceElse c a₁ a₂).lower .structured = (do
    let condition ← needed "if" (← c.lower .structured)
    let otherwise ← newLabel
    let done ← newLabel
    append (leaving condition otherwise)
    discard (a₁.lower .structured)
    append (jumping done)
    attach otherwise
    discard (a₂.lower .structured)
    attach done
    return none) := rfl

/-- What ends a choice with one branch: the label of a false condition, in the structured layout. -/
def landing (layout : ChoiceLayout) (l : Label) : LoweringOn δ Unit :=
  if layout = .structured then attach l else pure ()

/-- The other branch of a choice behind its label, in the structured layout. -/
def otherBranch [Registry δ] (layout : ChoiceLayout) (l : Label) (a : Tree) : LoweringOn δ Unit :=
  if layout = .structured then do
    attach l
    discard (a.lower layout)
  else pure ()

theorem lower_choice_layout [Registry δ] (layout : ChoiceLayout) (c a : Tree) :
    ((Tree.choice c a).lower layout : LoweringOn δ (Option Handle)) = (do
      let condition ← needed "if" (← c.lower layout)
      let otherwise ← newLabel
      append (leaving condition otherwise)
      discard (a.lower layout)
      landing layout otherwise
      return none) := by
  cases layout <;> rfl

theorem lower_choiceElse_layout [Registry δ] (layout : ChoiceLayout) (c a₁ a₂ : Tree) :
    ((Tree.choiceElse c a₁ a₂).lower layout : LoweringOn δ (Option Handle)) = (do
      let condition ← needed "if" (← c.lower layout)
      let otherwise ← newLabel
      let done ← newLabel
      append (leaving condition otherwise)
      discard (a₁.lower layout)
      append (jumping done)
      otherBranch layout otherwise a₂
      attach done
      return none) := by
  cases layout <;> rfl

theorem lower_loop [Registry δ] (c a : Tree) :
    ((Tree.loop c a).lower layout : LoweringOn δ (Option Handle)) = (do
      let start ← newLabel
      let done ← newLabel
      attach start
      let condition ← needed "while" (← c.lower layout)
      append (leaving condition done)
      discard (a.lower layout)
      append (jumping start)
      attach done
      return none) := rfl

theorem lower_constant_iff {v : Value} : (Tree.constant v).lower layout b = .ok r b' ↔
    r = some ⟨b.freshName, v.kind⟩ ∧ b' = b.withTemp v := by
  rw [lower, bind_of_ok (tempOf_apply v b)]
  simp [eq_comm]

theorem lower_reference_iff {g : Handle} : (Tree.reference g).lower layout b = .ok r b' ↔
    ∃ h, b.table.lookup g.name = .ok h ∧ r = some h ∧ b' = b := by
  rw [lower, bind_eq_ok_iff]
  constructor
  · rintro ⟨h, b₁, hl, hp⟩
    obtain ⟨hl, rfl⟩ := lookup_eq_ok_iff.mp hl
    cases hp
    exact ⟨h, hl, rfl, rfl⟩
  · rintro ⟨h, hl, rfl, rfl⟩
    exact ⟨h, b', lookup_eq_ok_iff.mpr ⟨hl, rfl⟩, rfl⟩

/-- An operand that is lowered and needed gives a variable. -/
theorem operand_ok_iff {construct : String} {a : Tree} {β : Type} {rest : Handle → Lowering β}
    {x : β} : (a.lower layout >>= fun r => needed construct r >>= rest) b = .ok x b' ↔
      ∃ h b₁, a.lower layout b = .ok (some h) b₁ ∧ rest h b₁ = .ok x b' := by
  simp only [bind_eq_ok_iff, needed_eq_ok_iff]
  constructor
  · rintro ⟨_, b₁, ha, h, _, ⟨rfl, rfl⟩, hr⟩
    exact ⟨h, _, ha, hr⟩
  · rintro ⟨h, b₁, ha, hr⟩
    exact ⟨some h, b₁, ha, h, b₁, ⟨rfl, rfl⟩, hr⟩

/-- A last step that gives no variable. -/
theorem closing_ok_iff {x : Lowering Unit} :
    (x >>= fun _ => pure none) b = .ok r b' ↔ r = none ∧ x b = .ok () b' := by
  rw [bind_eq_ok_iff]
  constructor
  · rintro ⟨_, b₁, hx, hp⟩
    obtain ⟨rfl, rfl⟩ := pure_eq_ok_iff.mp hp
    exact ⟨rfl, hx⟩
  · rintro ⟨rfl, hx⟩
    exact ⟨(), b', hx, rfl⟩

/-- A child that is lowered for its code only. -/
theorem discarded_ok_iff {a : Tree} {β : Type} {rest : PUnit → Lowering β} {x : β} :
    (discard (a.lower layout) >>= rest) b = .ok x b' ↔
      ∃ r₁ b₁, a.lower layout b = .ok r₁ b₁ ∧ rest ⟨⟩ b₁ = .ok x b' := by
  simp only [bind_eq_ok_iff, discard_eq_ok_iff]
  constructor
  · rintro ⟨_, b₁, ⟨r₁, ha⟩, hr⟩
    exact ⟨r₁, b₁, ha, hr⟩
  · rintro ⟨r₁, b₁, ha, hr⟩
    exact ⟨⟨⟩, b₁, ⟨r₁, ha⟩, hr⟩

theorem lower_negation_iff {a : Tree} : (Tree.negation a).lower layout b = .ok r b' ↔
    ∃ source b₁, a.lower layout b = .ok (some source) b₁ ∧ r = some ⟨b₁.freshName, .boolean⟩ ∧
      b' = (b₁.withTemp (.zero .boolean)).push
        ⟨.negate, .two ⟨b₁.freshName, .boolean⟩ source, none, rfl⟩ := by
  rw [lower_negation, operand_ok_iff]
  simp only [negated_apply, EStateM.Result.ok.injEq, eq_comm]

theorem lower_binary_iff {op : Operator} {a₁ a₂ : Tree} :
    (Tree.binary op a₁ a₂).lower layout b = .ok r b' ↔
      ∃ left b₁, a₁.lower layout b = .ok (some left) b₁ ∧
        ∃ right b₂, a₂.lower layout b₁ = .ok (some right) b₂ ∧
          combined op (op.resultTy a₁.staticType a₂.staticType) left right b₂ = .ok r b' := by
  rw [lower_binary, operand_ok_iff]
  simp only [operand_ok_iff]

theorem lower_assign_iff {g : Handle} {a : Tree} : (Tree.assign g a).lower layout b = .ok r b' ↔
    ∃ source b₁, a.lower layout b = .ok (some source) b₁ ∧
      copy g source b₁ = .ok () b' ∧ r = none := by
  rw [lower, operand_ok_iff]
  simp only [bind_eq_ok_iff, pure_apply, EStateM.Result.ok.injEq]
  constructor
  · rintro ⟨source, b₁, ha, _, _, hc, rfl, rfl⟩
    exact ⟨source, b₁, ha, hc, rfl⟩
  · rintro ⟨source, b₁, ha, hc, rfl⟩
    exact ⟨source, b₁, ha, (), b', hc, rfl, rfl⟩

theorem lower_write_iff {a : Tree} {n : Bool} : (Tree.write a n).lower layout b = .ok r b' ↔
    ∃ source b₁, a.lower layout b = .ok (some source) b₁ ∧ r = none ∧
      b' = b₁.push (writing n source) := by
  rw [lower_write, operand_ok_iff]
  simp only [bind_of_ok (append_apply _ _), pure_eq_ok_iff]

/-- What ends a choice adds the label in the structured layout and nothing in the legacy one. -/
theorem landing_ok_iff {l : Label} : landing layout l b = .ok () b' ↔
    b' = if layout = .structured then b.push (.carrier l) else b := by
  unfold landing
  split
  · rw [attach_apply, EStateM.Result.ok.injEq]
    simp [eq_comm]
  · rw [pure_eq_ok_iff]
    simp

/-- The other branch adds its code in the structured layout and nothing in the legacy one. -/
theorem otherBranch_ok_iff {l : Label} {a : Tree} : otherBranch layout l a b = .ok () b' ↔
    if layout = .structured then ∃ r₁, a.lower layout (b.push (.carrier l)) = .ok r₁ b'
    else b' = b := by
  unfold otherBranch
  split
  · rw [bind_of_ok (attach_apply l b), discard_eq_ok_iff]
  · rw [pure_eq_ok_iff]
    simp

theorem lower_choice_layout_iff {c a : Tree} : (Tree.choice c a).lower layout b = .ok r b' ↔
    ∃ condition b₁, c.lower layout b = .ok (some condition) b₁ ∧
      ∃ r₂ b₂, a.lower layout (b₁.takeLabel.push (leaving condition b₁.label)) = .ok r₂ b₂ ∧
        r = none ∧ landing layout b₁.label b₂ = .ok () b' := by
  rw [lower_choice_layout, operand_ok_iff]
  simp only [bind_of_ok (newLabel_apply _), bind_of_ok (append_apply _ _), discarded_ok_iff,
    closing_ok_iff]

theorem lower_choice_iff {c a : Tree} : (Tree.choice c a).lower .structured b = .ok r b' ↔
    ∃ condition b₁, c.lower .structured b = .ok (some condition) b₁ ∧
      ∃ r₂ b₂, a.lower .structured (b₁.takeLabel.push (leaving condition b₁.label)) =
          .ok r₂ b₂ ∧
        r = none ∧ b' = b₂.push (.carrier b₁.label) := by
  simp only [lower_choice_layout_iff, landing_ok_iff, if_true]

theorem lower_choiceElse_layout_iff {c a₁ a₂ : Tree} :
    (Tree.choiceElse c a₁ a₂).lower layout b = .ok r b' ↔
      ∃ condition b₁, c.lower layout b = .ok (some condition) b₁ ∧
        ∃ r₂ b₂, a₁.lower layout
            (b₁.takeLabel.takeLabel.push (leaving condition b₁.label)) = .ok r₂ b₂ ∧
          ∃ b₃, otherBranch layout b₁.label a₂ (b₂.push (jumping b₁.takeLabel.label)) =
              .ok () b₃ ∧
            r = none ∧ b' = b₃.push (.carrier b₁.takeLabel.label) := by
  have unit : ∀ {p : Unit → Prop}, (∃ u, p u) ↔ p () := ⟨fun ⟨_, h⟩ => h, fun h => ⟨_, h⟩⟩
  rw [lower_choiceElse_layout, operand_ok_iff]
  simp only [bind_of_ok (newLabel_apply _), bind_of_ok (append_apply _ _), discarded_ok_iff,
    bind_eq_ok_iff (x := otherBranch _ _ _), bind_of_ok (attach_apply _ _), pure_eq_ok_iff, unit]

theorem lower_choiceElse_iff {c a₁ a₂ : Tree} :
    (Tree.choiceElse c a₁ a₂).lower .structured b = .ok r b' ↔
      ∃ condition b₁, c.lower .structured b = .ok (some condition) b₁ ∧
        ∃ r₂ b₂, a₁.lower .structured
            (b₁.takeLabel.takeLabel.push (leaving condition b₁.label)) = .ok r₂ b₂ ∧
          ∃ r₃ b₃, a₂.lower .structured
              ((b₂.push (jumping b₁.takeLabel.label)).push (.carrier b₁.label)) = .ok r₃ b₃ ∧
            r = none ∧ b' = b₃.push (.carrier b₁.takeLabel.label) := by
  simp only [lower_choiceElse_layout_iff, otherBranch_ok_iff, if_true]
  constructor
  · rintro ⟨condition, b₁, hc, r₂, b₂, h₁, b₃, ⟨r₃, h₂⟩, hr, hb⟩
    exact ⟨condition, b₁, hc, r₂, b₂, h₁, r₃, b₃, h₂, hr, hb⟩
  · rintro ⟨condition, b₁, hc, r₂, b₂, h₁, r₃, b₃, h₂, hr, hb⟩
    exact ⟨condition, b₁, hc, r₂, b₂, h₁, b₃, ⟨r₃, h₂⟩, hr, hb⟩

theorem lower_loop_iff {c a : Tree} : (Tree.loop c a).lower layout b = .ok r b' ↔
    ∃ condition b₁,
      c.lower layout (b.takeLabel.takeLabel.push (.carrier b.label)) = .ok (some condition) b₁ ∧
        ∃ r₂ b₂, a.lower layout (b₁.push (leaving condition b.takeLabel.label)) = .ok r₂ b₂ ∧
          r = none ∧ b' = (b₂.push (jumping b.label)).push (.carrier b.takeLabel.label) := by
  rw [lower_loop, bind_of_ok (newLabel_apply _), bind_of_ok (newLabel_apply _),
    bind_of_ok (attach_apply _ _), operand_ok_iff]
  simp only [bind_of_ok (append_apply _ _), discarded_ok_iff, bind_of_ok (attach_apply _ _),
    pure_eq_ok_iff]

theorem lower_block_iff {ts : List Tree} : (Tree.block ts).lower layout b = .ok r b' ↔
    lowerAll layout ts b = .ok () b' ∧ r = none := by
  rw [lower, bind_eq_ok_iff]
  simp only [pure_apply, EStateM.Result.ok.injEq]
  constructor
  · rintro ⟨_, _, h, rfl, rfl⟩
    exact ⟨h, rfl⟩
  · rintro ⟨h, rfl⟩
    exact ⟨(), b', h, rfl, rfl⟩

theorem lowerAll_nil_iff : lowerAll layout [] b = .ok () b' ↔ b' = b := by
  simp [lowerAll, eq_comm]

theorem lowerAll_cons_iff {t : Tree} {ts : List Tree} :
    lowerAll layout (t :: ts) b = .ok () b' ↔
      ∃ r₁ b₁, t.lower layout b = .ok r₁ b₁ ∧ lowerAll layout ts b₁ = .ok () b' := by
  rw [lowerAll, discarded_ok_iff]

/-- What composes and holds for each of the trees holds for all of them in order. -/
theorem lowerAll_composes {R : Builder → Builder → Prop} (hR : Composes R) {ts : List Tree}
    (h : ∀ t ∈ ts, ∀ {b b' : Builder} {r : Option Handle}, t.lower layout b = .ok r b' → R b b') :
    ∀ {b b' : Builder}, lowerAll layout ts b = .ok () b' → R b b' := by
  induction ts with
  | nil =>
    intro b b' hl
    obtain rfl := lowerAll_nil_iff.mp hl
    exact hR.refl b'
  | cons t ts ih =>
    intro b b' hl
    obtain ⟨r₁, b₁, ht, hl⟩ := lowerAll_cons_iff.mp hl
    exact hR.trans (h t List.mem_cons_self ht)
      (ih (fun u hu => h u (List.mem_cons_of_mem t hu)) hl)

/-! ## 4. Compilations -/

variable {t : Tree} {options : Options} {p : Program} {e : Error}

section
variable [Registry δ] {table : Table δ} {b : Builder δ}

/-- A tree that is rejected is not lowered. -/
theorem compile_of_rejected (hc : t.check = .error e) (options : Options) (table : Table δ) :
    t.compile options table = .error e table := by
  simp only [compile, hc]

/-- A compilation fails with lowering, and leaves the table of the builder. -/
theorem compile_of_error (hc : t.check = .ok ())
    (hl : t.lower options.layout (.ofTable table) = .error e b) :
    t.compile options table = .error e b.table := by
  simp only [compile, hc, hl]

/-- A compilation whose labels pair up, or are not looked at, succeeds with lowering. -/
theorem compile_of_ok (hc : t.check = .ok ())
    (hl : t.lower options.layout (.ofTable table) = .ok r b)
    (hp : options.pairLabels = true → b.program.check = .ok ()) :
    t.compile options table = .ok b.program b.table := by
  cases hpair : options.pairLabels with
  | false => simp [compile, hc, hl, hpair]
  | true => simp [compile, hc, hl, hpair, hp hpair]

/-- A compilation fails with the check of labels, if they are looked at. -/
theorem compile_of_unpaired (hc : t.check = .ok ())
    (hl : t.lower options.layout (.ofTable table) = .ok r b) (hp : options.pairLabels = true)
    (he : b.program.check = .error e) : t.compile options table = .error e b.table := by
  simp only [compile, hc, hl, hp, he, if_true]

end

variable {table table' : Table}

/-- What a successful compilation consists of. -/
theorem compile_eq_ok_iff : t.compile options table = .ok p table' ↔
    t.check = .ok () ∧ ∃ r b, t.lower options.layout (.ofTable table) = .ok r b ∧
      (options.pairLabels = true → b.program.check = .ok ()) ∧
        p = b.program ∧ table' = b.table := by
  constructor
  · intro h
    unfold compile at h
    cases hc : t.check with
    | error e => simp [hc] at h
    | ok u =>
      cases hl : t.lower options.layout (.ofTable table) with
      | error e b => simp [hc, hl] at h
      | ok r b =>
        cases hpair : options.pairLabels with
        | false =>
          simp [hc, hl, hpair] at h
          exact ⟨rfl, r, b, rfl, by simp, h.1.symm, h.2.symm⟩
        | true =>
          cases hp : b.program.check with
          | error e => simp [hc, hl, hpair, hp] at h
          | ok u =>
            simp [hc, hl, hpair, hp] at h
            exact ⟨rfl, r, b, rfl, fun _ => hp, h.1.symm, h.2.symm⟩
  · rintro ⟨hc, r, b, hl, hp, rfl, rfl⟩
    exact compile_of_ok hc hl hp

/-- The table after a compilation, however it ends, is that of the builder, or the one from before
if the tree is not accepted. -/
theorem leaves_compile (t : Tree) (options : Options) (table : Table) :
    leaves (t.compile options) table = table ∨
      leaves (t.compile options) table =
        (leaves (t.lower options.layout) (.ofTable table)).table := by
  unfold leaves compile
  cases hc : t.check with
  | error e => exact .inl rfl
  | ok u =>
    right
    cases hl : t.lower options.layout (.ofTable table) with
    | error e b => rfl
    | ok r b =>
      cases options.pairLabels with
      | false => rfl
      | true => cases hp : b.program.check <;> simp [hp]

end Tree
end ProcTree
