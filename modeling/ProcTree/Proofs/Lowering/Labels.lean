/-
# Labels of lowered code

Choices and loops take labels, lower their children, which take labels of their own, and attach
and use the labels that they took.  In the structured layout every label that was taken is attached
once and used once (`Builder.Closes`), and this is what sequences of such additions have in common,
however deeply they are nested (`Builder.Closes.trans`, `Tree.lower_closes`).

The numbers of labels are those of a counter, so labels are distinct as long as the counter stays
within sixty-four bits (`Label.run_nodup`).
-/
import Mathlib.Algebra.GroupWithZero.Nat
import ProcTree.Proofs.Lowering.Steps

namespace ProcTree

/-! ## 1. Numbered labels -/

namespace Label

/-- The labels with the numbers from the first one on, as many as counted. -/
def run (first count : Nat) : List Label :=
  (List.range' first count).map fun i => ⟨UInt64.ofNat i⟩

@[simp] theorem run_one (first : Nat) : run first 1 = [⟨UInt64.ofNat first⟩] := rfl

theorem run_add (first j k : Nat) : run first (j + k) = run first j ++ run (first + j) k := by
  rw [run, run, run, ← List.map_append, List.range'_append_1]

/-- The numbers of a run are those from the first one on, if they have sixty-four bits. -/
theorem mem_run {first count : Nat} (h : first + count ≤ UInt64.size) {l : Label} :
    l ∈ run first count ↔ first ≤ l.number.toNat ∧ l.number.toNat < first + count := by
  rw [run, List.mem_map]
  constructor
  · rintro ⟨i, hi, rfl⟩
    rw [List.mem_range'_1] at hi
    rw [UInt64.toNat_ofNat_of_lt' (by omega)]
    exact hi
  · intro hl
    exact ⟨l.number.toNat, List.mem_range'_1.mpr hl, by simp⟩

/-- Labels with different numbers of sixty-four bits are different. -/
theorem run_nodup {first count : Nat} (h : first + count ≤ UInt64.size) :
    (run first count).Nodup := by
  refine List.pairwise_map.mpr (List.Pairwise.imp_of_mem ?_ List.nodup_range')
  intro i j hi hj hne e
  rw [List.mem_range'_1] at hi hj
  have hn := congrArg (fun l : Label => l.number.toNat) e
  simp only [UInt64.toNat_ofNat_of_lt' (show i < UInt64.size by omega),
    UInt64.toNat_ofNat_of_lt' (show j < UInt64.size by omega)] at hn
  exact hne hn

/-- Each label of a run occurs in it once. -/
theorem count_run {first count : Nat} (h : first + count ≤ UInt64.size) (l : Label) :
    (run first count).count l =
      if first ≤ l.number.toNat ∧ l.number.toNat < first + count then 1 else 0 := by
  rw [(run_nodup h).count]
  simp only [mem_run h]

end Label

/-! ## 2. The labels that a tree takes -/

namespace Tree

/-- The labels that the root takes. -/
def rootLabels : Tree → Nat
  | .choice .. => 1
  | .choiceElse .. | .loop .. => 2
  | _ => 0

/-- The labels that all nodes take. -/
def labelCount (t : Tree) : Nat := (t.subtrees.map rootLabels).sum

theorem sum_map_flatMap_subtrees (ts : List Tree) :
    ((ts.flatMap subtrees).map rootLabels).sum = (ts.map labelCount).sum := by
  induction ts with
  | nil => rfl
  | cons t ts ih =>
    rw [List.flatMap_cons, List.map_append, List.sum_append_nat, ih, List.map_cons, List.sum_cons]
    rfl

/-- A tree takes the labels of its root and of its children. -/
theorem labelCount_eq (t : Tree) :
    t.labelCount = t.rootLabels + (t.children.map labelCount).sum := by
  rw [labelCount, subtrees_eq, List.map_cons, List.sum_cons, sum_map_flatMap_subtrees]

end Tree

/-! ## 3. Closed additions -/

namespace Builder

variable {b b₁ b₂ b' : Builder}

/-- Code was added at the end with these labels attached and these jump targets, in order, and so
many labels were taken. -/
structure Adds (attached targets : List Label) (taken : Nat) (b b' : Builder) : Prop where
  nextLabel : b'.nextLabel = b.nextLabel + taken
  code : ∃ segment, b'.code = b.code ++ segment ∧
    segment.filterMap Instruction.label = attached ∧
    segment.filterMap Instruction.target? = targets

namespace Adds

theorem refl (b : Builder) : Adds [] [] 0 b b := ⟨rfl, [], by simp⟩

theorem trans {A A' T T' : List Label} {k k' : Nat} (h : Adds A T k b b₁)
    (h' : Adds A' T' k' b₁ b₂) : Adds (A ++ A') (T ++ T') (k + k') b b₂ := by
  obtain ⟨seg, hc, hA, hT⟩ := h.code
  obtain ⟨seg', hc', hA', hT'⟩ := h'.code
  refine ⟨by rw [h'.nextLabel, h.nextLabel, Nat.add_assoc], seg ++ seg', ?_, ?_, ?_⟩
  · rw [hc', hc, List.append_assoc]
  · rw [List.filterMap_append, hA, hA']
  · rw [List.filterMap_append, hT, hT']

theorem takeLabel (b : Builder) : Adds [] [] 1 b b.takeLabel := ⟨rfl, [], by simp⟩

theorem push (b : Builder) (i : Instruction) :
    Adds i.label.toList i.target?.toList 0 b (b.push i) := by
  refine ⟨rfl, [i], rfl, ?_, ?_⟩
  · cases hi : i.label <;> simp [hi]
  · cases hi : i.target? <;> simp [hi]

theorem carrier (b : Builder) (l : Label) : Adds [l] [] 0 b (b.push (.carrier l)) :=
  push b (.carrier l)

end Adds

/-- **A closed addition**: so many labels were taken, each is attached to one of the new
instructions and is the target of one new jump, and no other label occurs in the new code. -/
def Closes (taken : Nat) (b b' : Builder) : Prop :=
  ∃ A T, Adds A T taken b b' ∧ A.Perm (Label.run b.nextLabel taken) ∧
    T.Perm (Label.run b.nextLabel taken)

namespace Closes

variable {j k : Nat}

theorem refl (b : Builder) : Closes 0 b b := ⟨[], [], .refl b, .refl [], .refl []⟩

/-- **Closed additions compose.**  The second one takes its labels after those of the first. -/
theorem trans (h : Closes j b b₁) (h' : Closes k b₁ b₂) : Closes (j + k) b b₂ := by
  obtain ⟨A, T, hadd, hA, hT⟩ := h
  obtain ⟨A', T', hadd', hA', hT'⟩ := h'
  rw [hadd.nextLabel] at hA' hT'
  refine ⟨A ++ A', T ++ T', hadd.trans hadd', ?_, ?_⟩
  · rw [Label.run_add]
    exact hA.append hA'
  · rw [Label.run_add]
    exact hT.append hT'

/-- Additions without labels compose, which makes them something that a computation keeps. -/
theorem composes : Composes (Closes 0) := ⟨refl, fun h h' => h.trans h'⟩

theorem withTemp (b : Builder) (v : Value) : Closes 0 b (b.withTemp v) :=
  ⟨[], [], ⟨rfl, [], by simp⟩, .refl [], .refl []⟩

/-- An instruction without labels is a closed addition. -/
theorem push (b : Builder) {i : Instruction} (hl : i.label = none) (ht : i.target? = none) :
    Closes 0 b (b.push i) := by
  have h := Adds.push b i
  rw [hl, ht] at h
  exact ⟨[], [], h, .refl [], .refl []⟩

/-- The new code of a closed addition, label by label. -/
theorem segment (h : Closes k b b') (hfit : b'.nextLabel ≤ UInt64.size) :
    ∃ seg, b'.code = b.code ++ seg ∧ b'.nextLabel = b.nextLabel + k ∧
      ∀ l : Label,
        (seg.filterMap Instruction.label).count l =
            (if b.nextLabel ≤ l.number.toNat ∧ l.number.toNat < b'.nextLabel then 1 else 0) ∧
          (seg.filterMap Instruction.target?).count l =
            (if b.nextLabel ≤ l.number.toNat ∧ l.number.toNat < b'.nextLabel then 1 else 0) := by
  obtain ⟨A, T, hadd, hA, hT⟩ := h
  obtain ⟨seg, hc, hsA, hsT⟩ := hadd.code
  have hn := hadd.nextLabel
  refine ⟨seg, hc, hn, ?_⟩
  intro l
  rw [hsA, hsT, hA.count_eq, hT.count_eq, hn, Label.count_run (hn ▸ hfit)]
  exact ⟨rfl, rfl⟩

end Closes
end Builder

/-! ## 4. Lowering is closed -/

namespace Lowering
open Builder

variable {b b' : Builder}

theorem keeps_fail {α : Type} (e : Error) : Keeps (Closes 0) (fail e : Lowering α) :=
  Keeps.throw Closes.composes e

theorem keeps_append {i : Instruction} (hl : i.label = none) (ht : i.target? = none) :
    Keeps (Closes 0) (append i) := fun b => Closes.push b hl ht

theorem keeps_temp (ty : Ty) : Keeps (Closes 0) (temp ty) := by
  intro b
  cases ty with
  | none =>
    rw [leaves_of_error (temp_none b)]
    exact ⟨[], [], ⟨rfl, [], by simp⟩, .refl [], .refl []⟩
  | some k =>
    rw [leaves_of_ok (temp_some k b)]
    exact Closes.withTemp b _

theorem keeps_asReal (h : Handle) : Keeps (Closes 0) (asReal h) := by
  unfold asReal
  split
  · refine Keeps.bind Closes.composes (keeps_temp _) fun r => ?_
    exact Keeps.result Closes.composes (keeps_append rfl rfl) _
  · exact Keeps.pure Closes.composes _

theorem keeps_matched (left right : Handle) : Keeps (Closes 0) (matched left right) := by
  unfold matched
  split
  · exact Keeps.result Closes.composes (keeps_asReal left) _
  · exact Keeps.result Closes.composes (keeps_asReal right) _
  · exact Keeps.pure Closes.composes _

/-- The code of an operator has no labels. -/
theorem keeps_apply (op : Operator) (result left right : Handle) :
    Keeps (Closes 0) (apply op result left right) := by
  cases op with
  | comparison c =>
    rw [apply_comparison]
    refine Keeps.bind Closes.composes (keeps_matched left right) fun p => ?_
    cases hn : Numeric.ofKind? p.1.kind with
    | some n =>
      rw [compared_of_some hn]
      exact keeps_append rfl rfl
    | none =>
      rw [compared_of_none hn]
      exact keeps_fail _
  | arithmetic a =>
    refine Keeps.bind Closes.composes (keeps_matched left right) ?_
    rintro ⟨left, right⟩
    exact Keeps.bind Closes.composes (keeps_append rfl rfl) fun _ => keeps_append rfl rfl
  | realDivision =>
    refine Keeps.bind Closes.composes (keeps_asReal left) fun _ => ?_
    exact Keeps.bind Closes.composes (keeps_asReal right) fun _ => keeps_append rfl rfl
  | wholeDivision d => cases d <;> exact keeps_append rfl rfl
  | logical c => exact keeps_append rfl rfl

theorem keeps_combined (op : Operator) (ty : Ty) (left right : Handle) :
    Keeps (Closes 0) (combined op ty left right) := by
  refine Keeps.bind Closes.composes (keeps_temp ty) fun result => ?_
  exact Keeps.result Closes.composes (keeps_apply op result left right) _

theorem keeps_copy (target source : Handle) : Keeps (Closes 0) (copy target source) := by
  unfold copy
  split <;> first | exact keeps_append rfl rfl | exact keeps_fail _

end Lowering

namespace Tree
open Lowering Builder

variable {b b' : Builder} {r : Option Handle}

/-- A choice uses its label before the branch and attaches it after the branch. -/
theorem closes_choice {j k : Nat} {b₁ b₂ : Builder} {condition : Handle}
    (hc : Closes j b b₁) (ha : Closes k (b₁.takeLabel.push (leaving condition b₁.label)) b₂) :
    Closes (1 + (j + k)) b (b₂.push (.carrier b₁.label)) := by
  obtain ⟨A, T, hadd, hA, hT⟩ := hc
  obtain ⟨A', T', hadd', hA', hT'⟩ := ha
  have hn : b₁.nextLabel = b.nextLabel + j := hadd.nextLabel
  have hall := (((hadd.trans (.takeLabel b₁)).trans
    (.push b₁.takeLabel (leaving condition b₁.label))).trans hadd').trans (.carrier b₂ b₁.label)
  have hrun : Label.run b.nextLabel (1 + (j + k)) =
      Label.run b.nextLabel j ++ ([b₁.label] ++ Label.run (b.nextLabel + j + 1) k) := by
    rw [show 1 + (j + k) = j + (1 + k) by omega, Label.run_add, Label.run_add, Label.run_one,
      Builder.label, hn]
  rw [nextLabel_push, nextLabel_takeLabel, hn] at hA' hT'
  refine ⟨_, _, show 1 + (j + k) = j + 1 + 0 + k + 0 by omega ▸ hall, ?_, ?_⟩
  · refine List.perm_iff_count.mpr fun l => ?_
    simp only [hrun, leaving, Option.toList, List.count_append, hA.count_eq, hA'.count_eq,
      List.count_nil]
    omega
  · refine List.perm_iff_count.mpr fun l => ?_
    simp only [hrun, leaving, Instruction.target?, Operands.target?, Option.toList,
      List.count_append, hT.count_eq, hT'.count_eq, List.count_nil]
    omega

/-- A choice with two branches uses and attaches its second label around the second branch. -/
theorem closes_choiceElse {i j k : Nat} {b₁ b₂ b₃ : Builder} {condition : Handle}
    (hc : Closes i b b₁)
    (ha : Closes j (b₁.takeLabel.takeLabel.push (leaving condition b₁.label)) b₂)
    (ha' : Closes k ((b₂.push (jumping b₁.takeLabel.label)).push (.carrier b₁.label)) b₃) :
    Closes (2 + (i + (j + k))) b (b₃.push (.carrier b₁.takeLabel.label)) := by
  obtain ⟨A, T, hadd, hA, hT⟩ := hc
  obtain ⟨A', T', hadd', hA', hT'⟩ := ha
  obtain ⟨A'', T'', hadd'', hA'', hT''⟩ := ha'
  have hn : b₁.nextLabel = b.nextLabel + i := hadd.nextLabel
  have hn' : b₂.nextLabel = b.nextLabel + i + 1 + 1 + j := by
    rw [hadd'.nextLabel, nextLabel_push, nextLabel_takeLabel, nextLabel_takeLabel, hn]
  have hall := ((((((hadd.trans (.takeLabel b₁)).trans (.takeLabel b₁.takeLabel)).trans
    (.push b₁.takeLabel.takeLabel (leaving condition b₁.label))).trans hadd').trans
    (.push b₂ (jumping b₁.takeLabel.label))).trans (.carrier _ b₁.label)).trans hadd''
  have hall := hall.trans (.carrier b₃ b₁.takeLabel.label)
  have hrun : Label.run b.nextLabel (2 + (i + (j + k))) =
      Label.run b.nextLabel i ++ ([b₁.label] ++ ([b₁.takeLabel.label] ++
        (Label.run (b.nextLabel + i + 1 + 1) j ++
          Label.run (b.nextLabel + i + 1 + 1 + j) k))) := by
    rw [show 2 + (i + (j + k)) = i + (1 + (1 + (j + k))) by omega, Label.run_add, Label.run_add,
      Label.run_add, Label.run_add, Label.run_one, Label.run_one, Builder.label, Builder.label,
      nextLabel_takeLabel, hn]
  rw [nextLabel_push, nextLabel_takeLabel, nextLabel_takeLabel, hn] at hA' hT'
  rw [nextLabel_push, nextLabel_push, hn'] at hA'' hT''
  refine ⟨_, _, show 2 + (i + (j + k)) = i + 1 + 1 + 0 + j + 0 + 0 + k + 0 by omega ▸ hall,
    ?_, ?_⟩
  · refine List.perm_iff_count.mpr fun l => ?_
    simp only [hrun, leaving, jumping, Option.toList, List.count_append, hA.count_eq,
      hA'.count_eq, hA''.count_eq, List.count_nil]
    omega
  · refine List.perm_iff_count.mpr fun l => ?_
    simp only [hrun, leaving, jumping, Instruction.target?, Operands.target?, Option.toList,
      List.count_append, hT.count_eq, hT'.count_eq, hT''.count_eq, List.count_nil]
    omega

/-- A loop takes both labels first, and attaches the second one last. -/
theorem closes_loop {j k : Nat} {b₁ b₂ : Builder} {condition : Handle}
    (hc : Closes j (b.takeLabel.takeLabel.push (.carrier b.label)) b₁)
    (ha : Closes k (b₁.push (leaving condition b.takeLabel.label)) b₂) :
    Closes (2 + (j + k)) b ((b₂.push (jumping b.label)).push (.carrier b.takeLabel.label)) := by
  obtain ⟨A, T, hadd, hA, hT⟩ := hc
  obtain ⟨A', T', hadd', hA', hT'⟩ := ha
  have hn : b₁.nextLabel = b.nextLabel + 1 + 1 + j := hadd.nextLabel
  have hall := (((((Adds.takeLabel b).trans (.takeLabel b.takeLabel)).trans
    (.carrier b.takeLabel.takeLabel b.label)).trans hadd).trans
    (.push b₁ (leaving condition b.takeLabel.label))).trans hadd'
  have hall := (hall.trans (.push b₂ (jumping b.label))).trans (.carrier _ b.takeLabel.label)
  have hrun : Label.run b.nextLabel (2 + (j + k)) =
      [b.label] ++ ([b.takeLabel.label] ++ (Label.run (b.nextLabel + 1 + 1) j ++
        Label.run (b.nextLabel + 1 + 1 + j) k)) := by
    rw [show 2 + (j + k) = 1 + (1 + (j + k)) by omega, Label.run_add, Label.run_add,
      Label.run_add, Label.run_one, Label.run_one, Builder.label, Builder.label,
      nextLabel_takeLabel]
  rw [nextLabel_push, nextLabel_takeLabel, nextLabel_takeLabel] at hA hT
  rw [nextLabel_push, hn] at hA' hT'
  refine ⟨_, _, show 2 + (j + k) = 0 + 1 + 1 + 0 + j + 0 + k + 0 + 0 by omega ▸ hall, ?_, ?_⟩
  · refine List.perm_iff_count.mpr fun l => ?_
    simp only [hrun, leaving, jumping, Option.toList, List.count_append, hA.count_eq,
      hA'.count_eq, List.count_nil]
    omega
  · refine List.perm_iff_count.mpr fun l => ?_
    simp only [hrun, leaving, jumping, Instruction.target?, Operands.target?, Option.toList,
      List.count_append, hT.count_eq, hT'.count_eq, List.count_nil]
    omega

/-- **Lowering is a closed addition** of as many labels as the tree's nodes take.  The induction
is on the tree, for all builders: a child is lowered after labels were taken and jumps were added
around it. -/
theorem lower_closes (t : Tree) : ∀ {b b' : Builder} {r : Option Handle},
    t.lower .structured b = .ok r b' → Closes t.labelCount b b' := by
  induction t using Tree.ind with
  | constant v =>
    intro b b' r h
    obtain ⟨-, rfl⟩ := lower_constant_iff.mp h
    exact .withTemp b v
  | reference g =>
    intro b b' r h
    obtain ⟨_, -, -, rfl⟩ := lower_reference_iff.mp h
    exact .refl b'
  | negation a iha =>
    intro b b' r h
    obtain ⟨source, b₁, ha, -, rfl⟩ := lower_negation_iff.mp h
    have hp := (Closes.withTemp b₁ (.zero .boolean)).trans
      (.push _ (i := ⟨.negate, .two ⟨b₁.freshName, .boolean⟩ source, none, rfl⟩) rfl rfl)
    rw [labelCount_eq]
    simpa [rootLabels, children] using (iha ha).trans hp
  | binary op a₁ a₂ ih₁ ih₂ =>
    intro b b' r h
    obtain ⟨left, b₁, h₁, right, b₂, h₂, h⟩ := lower_binary_iff.mp h
    have hall := ((ih₁ h₁).trans (ih₂ h₂)).trans ((keeps_combined op _ left right).of_ok h)
    rw [labelCount_eq]
    simpa [rootLabels, children] using hall
  | assign g a iha =>
    intro b b' r h
    obtain ⟨source, b₁, ha, hc, -⟩ := lower_assign_iff.mp h
    rw [labelCount_eq]
    simpa [rootLabels, children] using (iha ha).trans ((keeps_copy g source).of_ok hc)
  | write a n iha =>
    intro b b' r h
    obtain ⟨source, b₁, ha, -, rfl⟩ := lower_write_iff.mp h
    have hp : Closes 0 b₁ (b₁.push (writing n source)) := by
      cases n <;> exact .push b₁ rfl rfl
    rw [labelCount_eq]
    simpa [rootLabels, children] using (iha ha).trans hp
  | choice c a ihc iha =>
    intro b b' r h
    obtain ⟨condition, b₁, hc, r₂, b₂, ha, -, rfl⟩ := lower_choice_iff.mp h
    rw [labelCount_eq]
    simpa [rootLabels, children] using closes_choice (ihc hc) (iha ha)
  | choiceElse c a₁ a₂ ihc ih₁ ih₂ =>
    intro b b' r h
    obtain ⟨condition, b₁, hc, r₂, b₂, h₁, r₃, b₃, h₂, -, rfl⟩ := lower_choiceElse_iff.mp h
    rw [labelCount_eq]
    simpa [rootLabels, children] using closes_choiceElse (ihc hc) (ih₁ h₁) (ih₂ h₂)
  | loop c a ihc iha =>
    intro b b' r h
    obtain ⟨condition, b₁, hc, r₂, b₂, ha, -, rfl⟩ := lower_loop_iff.mp h
    rw [labelCount_eq]
    simpa [rootLabels, children] using closes_loop (ihc hc) (iha ha)
  | block ts ih =>
    intro b b' r h
    obtain ⟨hall, -⟩ := lower_block_iff.mp h
    have all : ∀ us, us ⊆ ts → ∀ {b : Builder}, lowerAll .structured us b = .ok () b' →
        Closes (us.map labelCount).sum b b' := by
      intro us
      induction us with
      | nil =>
        intro _ b h
        obtain rfl := lowerAll_nil_iff.mp h
        exact .refl b'
      | cons u us ihus =>
        intro hus b h
        obtain ⟨r₁, b₁, hu, h⟩ := lowerAll_cons_iff.mp h
        exact (ih u (hus List.mem_cons_self) hu).trans
          (ihus (List.subset_of_cons_subset hus) h)
    rw [labelCount_eq]
    simpa [rootLabels, children] using all ts (List.Subset.refl ts) hall

end Tree

end ProcTree
