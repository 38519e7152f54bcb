/-
# Structured code passes the label check

The check of a program asks that a label stands on one instruction and that every jump goes to an
attached label.  Structured lowering is a closed addition, so its code passes
(`Builder.Closes.check`).  Nothing else in a compilation reports a label: the checker and lowering
fail by faults of the tree only (`Tree.check_reportsTree`, `Tree.lower_failsOnly`).
-/
import ProcTree.Proofs.Lowering.Labels
import ProcTree.Proofs.Pairing

namespace ProcTree

/-! ## 1. Closed additions -/

/-- **Code that was added to none is accepted**, if its labels have sixty-four bits. -/
theorem Builder.Closes.check {k : Nat} {table : Table} {b : Builder}
    (h : Closes k (.ofTable table) b) (hfit : k ≤ UInt64.size) : b.program.check = .ok () := by
  obtain ⟨A, T, hadd, hA, hT⟩ := h
  obtain ⟨seg, hc, hsA, hsT⟩ := hadd.code
  have hcode : b.program.code = seg := hc
  rw [Program.check, checkLabels, hcode, hsA, hsT, checkPairing_eq_ok_iff]
  have hn : (Label.run 0 k).Nodup := Label.run_nodup (by omega)
  exact ⟨hA.nodup_iff.mpr hn, (hT.trans hA.symm).subset⟩

/-! ## 2. Failures of lowering -/

/-- The fault lies in the tree, and not in code or in program text. -/
def Error.AboutTree (e : Error) : Prop := e.category ≠ .malformedProgram

namespace Lowering

theorem failsOnly_fail {α : Type} {e : Error} (h : e.AboutTree) :
    FailsOnly Error.AboutTree (fail e : Lowering α) := FailsOnly.throw h

theorem failsOnly_append (i : Instruction) : FailsOnly Error.AboutTree (append i : Lowering Unit) :=
  FailsOnly.of_ok fun b => ⟨(), _, append_apply i b⟩

theorem failsOnly_lookup (name : String) : FailsOnly Error.AboutTree (lookup name) := by
  intro b e b' h
  cases hf : b.table.find? name with
  | some v =>
    have hl : b.table.lookup name = .ok v.handle := by simp [Table.lookup, Table.get, hf, Except.map]
    rw [lookup_of_ok hl] at h
    cases h
  | none =>
    have hl : b.table.lookup name = .error (.notDeclared name) := by
      simp [Table.lookup, Table.get, hf, Except.map]
    rw [lookup_of_error hl] at h
    cases h
    simp [Error.AboutTree, Error.category]

theorem failsOnly_needed (construct : String) (r : Option Handle) :
    FailsOnly Error.AboutTree (needed construct r : Lowering Handle) := by
  cases r with
  | some h => exact FailsOnly.pure h
  | none => exact failsOnly_fail (by simp [Error.AboutTree, Error.category])

theorem failsOnly_temp (ty : Ty) : FailsOnly Error.AboutTree (temp ty) := by
  cases ty with
  | some k => exact FailsOnly.of_ok fun b => ⟨_, _, temp_some k b⟩
  | none =>
    intro b e b' h
    rw [temp_none] at h
    cases h
    simp [Error.AboutTree, Error.category]

theorem failsOnly_asReal (h : Handle) : FailsOnly Error.AboutTree (asReal h) := by
  refine FailsOnly.of_ok fun b => ?_
  rw [asReal_apply]
  split <;> exact ⟨_, _, rfl⟩

theorem failsOnly_matched (left right : Handle) :
    FailsOnly Error.AboutTree (matched left right) := by
  unfold matched
  split
  · exact FailsOnly.result (failsOnly_asReal left) _
  · exact FailsOnly.result (failsOnly_asReal right) _
  · exact FailsOnly.pure _

theorem failsOnly_apply (op : Operator) (result left right : Handle) :
    FailsOnly Error.AboutTree (apply op result left right) := by
  cases op with
  | comparison c =>
    rw [apply_comparison]
    refine FailsOnly.bind (failsOnly_matched left right) fun p => ?_
    cases hn : Numeric.ofKind? p.1.kind with
    | some n =>
      rw [compared_of_some hn]
      exact failsOnly_append _
    | none =>
      rw [compared_of_none hn]
      exact failsOnly_fail (by simp [Error.AboutTree, Error.category])
  | arithmetic a =>
    refine FailsOnly.bind (failsOnly_matched left right) ?_
    rintro ⟨left, right⟩
    exact FailsOnly.bind (failsOnly_append _) fun _ => failsOnly_append _
  | realDivision =>
    refine FailsOnly.bind (failsOnly_asReal left) fun _ => ?_
    exact FailsOnly.bind (failsOnly_asReal right) fun _ => failsOnly_append _
  | wholeDivision d => cases d <;> exact failsOnly_append _
  | logical c => exact failsOnly_append _

theorem failsOnly_copy (target source : Handle) :
    FailsOnly Error.AboutTree (copy target source : Lowering Unit) := by
  unfold copy
  split <;> first
    | exact failsOnly_append _
    | exact failsOnly_fail (by simp [Error.AboutTree, Error.category])

/-- An operand fails by itself, or because it gives no variable. -/
theorem failsOnly_operand {β : Type} {x : Lowering (Option Handle)} {construct : String}
    {rest : Handle → Lowering β} (hx : FailsOnly Error.AboutTree x)
    (hrest : ∀ h, FailsOnly Error.AboutTree (rest h)) :
    FailsOnly Error.AboutTree (x >>= fun r => needed construct r >>= rest) :=
  FailsOnly.bind hx fun r => FailsOnly.bind (failsOnly_needed construct r) hrest

end Lowering

namespace Tree
open Lowering Builder

/-- **Lowering fails by faults of the tree only.**  It takes and attaches labels without looking
at any. -/
theorem lower_failsOnly (t : Tree) : FailsOnly Error.AboutTree (t.lower .structured) := by
  have label : FailsOnly Error.AboutTree (newLabel : Lowering Label) :=
    FailsOnly.of_ok fun b => ⟨_, _, newLabel_apply b⟩
  have ends : ∀ {i : Instruction}, FailsOnly Error.AboutTree
      (append i >>= fun _ => (pure none : Lowering (Option Handle))) :=
    FailsOnly.result (failsOnly_append _) _
  induction t using Tree.ind with
  | constant v => exact FailsOnly.of_ok fun b => ⟨_, _, lower_constant_iff.mpr ⟨rfl, rfl⟩⟩
  | reference g => exact FailsOnly.result (failsOnly_lookup g.name) _
  | negation a iha =>
    rw [lower_negation]
    exact failsOnly_operand iha fun source =>
      FailsOnly.of_ok fun b => ⟨_, _, negated_apply source b⟩
  | binary op a₁ a₂ ih₁ ih₂ =>
    rw [lower_binary]
    refine failsOnly_operand ih₁ fun left => failsOnly_operand ih₂ fun right => ?_
    refine FailsOnly.bind (failsOnly_temp _) fun result => ?_
    exact FailsOnly.result (failsOnly_apply op result left right) _
  | assign g a iha =>
    rw [lower]
    refine failsOnly_operand iha fun source => ?_
    exact FailsOnly.result (failsOnly_copy g source) _
  | write a n iha =>
    rw [lower_write]
    exact failsOnly_operand iha fun _ => ends
  | choice c a ihc iha =>
    rw [lower_choice]
    refine failsOnly_operand ihc fun _ => FailsOnly.bind label fun _ => ?_
    exact FailsOnly.bind (failsOnly_append _) fun _ => FailsOnly.bind iha.discard fun _ => ends
  | choiceElse c a₁ a₂ ihc ih₁ ih₂ =>
    rw [lower_choiceElse]
    refine failsOnly_operand ihc fun _ => FailsOnly.bind label fun _ => ?_
    refine FailsOnly.bind label fun _ => FailsOnly.bind (failsOnly_append _) fun _ => ?_
    refine FailsOnly.bind ih₁.discard fun _ => FailsOnly.bind (failsOnly_append _) fun _ => ?_
    exact FailsOnly.bind (failsOnly_append _) fun _ => FailsOnly.bind ih₂.discard fun _ => ends
  | loop c a ihc iha =>
    rw [lower_loop]
    refine FailsOnly.bind label fun _ => FailsOnly.bind label fun _ => ?_
    refine FailsOnly.bind (failsOnly_append _) fun _ => failsOnly_operand ihc fun _ => ?_
    refine FailsOnly.bind (failsOnly_append _) fun _ => FailsOnly.bind iha.discard fun _ => ?_
    exact FailsOnly.bind (failsOnly_append _) fun _ => ends
  | block ts ih =>
    have all : ∀ us, us ⊆ ts → FailsOnly Error.AboutTree (lowerAll .structured us) := by
      intro us
      induction us with
      | nil => exact fun _ => FailsOnly.pure ()
      | cons u us ihus =>
        intro hus
        exact FailsOnly.bind (ih u (hus List.mem_cons_self)).discard
          fun _ => ihus (List.subset_of_cons_subset hus)
    rw [lower]
    exact FailsOnly.result (all ts (List.Subset.refl ts)) _

end Tree

/-! ## 3. Failures of the checker -/

/-- Every failure of a check is a fault of the tree. -/
def ReportsTree (x : Except Error Unit) : Prop := ∀ e, x = .error e → e.AboutTree

namespace ReportsTree

theorem ok : ReportsTree (.ok ()) := fun _ h => absurd h (by simp)

theorem error {e : Error} (he : e.AboutTree) : ReportsTree (.error e) := by
  intro e' h
  cases h
  exact he

/-- One check after another fails as one of them does. -/
theorem andThen {x : Except Error Unit} {f : Unit → Except Error Unit} (hx : ReportsTree x)
    (hf : ReportsTree (f ())) : ReportsTree (x >>= f) := by
  cases x with
  | ok u => exact hf
  | error e => exact hx

theorem negation (operand : Ty) : ReportsTree (checkNegation operand) := by
  unfold checkNegation
  split
  · exact ok
  · exact error (by simp [Error.AboutTree, Error.category])

theorem operator (op : Operator) (left right : Ty) : ReportsTree (op.check left right) := by
  unfold Operator.check
  split
  · exact error (by simp [Error.AboutTree, Error.category])
  · split
    · exact ok
    · exact error (by simp [Error.AboutTree, Error.category])

theorem condition (construct : String) (ty : Ty) : ReportsTree (checkCondition construct ty) := by
  unfold checkCondition
  split
  · exact ok
  · exact error (by simp [Error.AboutTree, Error.category])

theorem handle (target : Handle) (value : Ty) : ReportsTree (target.check value) := by
  unfold Handle.check
  split
  · exact ok
  · exact error (by simp [Error.AboutTree, Error.category])

theorem written (value : Ty) : ReportsTree (checkWritten value) := by
  unfold checkWritten
  split
  · exact error (by simp [Error.AboutTree, Error.category])
  · exact ok

end ReportsTree

namespace Tree
open Builder

/-- **The checker reports faults of the tree only.** -/
theorem check_reportsTree (t : Tree) : ReportsTree t.check := by
  induction t using Tree.ind with
  | constant v => exact .ok
  | reference g => exact .ok
  | negation a iha =>
    rw [check]
    exact .andThen iha (.negation _)
  | binary op a₁ a₂ ih₁ ih₂ =>
    rw [check]
    exact .andThen ih₁ (.andThen ih₂ (.operator op _ _))
  | assign g a iha =>
    rw [check]
    exact .andThen iha (.handle g _)
  | write a n iha =>
    rw [check]
    exact .andThen iha (.written _)
  | choice c a ihc iha =>
    rw [check]
    exact .andThen ihc (.andThen (.condition _ _) iha)
  | choiceElse c a₁ a₂ ihc ih₁ ih₂ =>
    rw [check]
    exact .andThen ihc (.andThen (.condition _ _) (.andThen ih₁ ih₂))
  | loop c a ihc iha =>
    rw [check]
    exact .andThen ihc (.andThen (.condition _ _) iha)
  | block ts ih =>
    have all : ∀ us, us ⊆ ts → ReportsTree (checkAll us) := by
      intro us
      induction us with
      | nil => exact fun _ => .ok
      | cons u us ihus =>
        intro hus
        rw [checkAll]
        exact .andThen (ih u (hus List.mem_cons_self)) (ihus (List.subset_of_cons_subset hus))
    rw [check]
    exact all ts (List.Subset.refl ts)

/-! ## 4. Whole compilations -/

/-- A structured compilation fails by faults of the tree only, if its labels have sixty-four
bits. -/
theorem compile_aboutTree {t : Tree} {options : Options} {table table' : Table} {e : Error}
    (hlayout : options.layout = .structured) (hfit : t.labelCount ≤ UInt64.size)
    (h : t.compile options table = .error e table') : e.AboutTree := by
  unfold compile at h
  cases hc : t.check with
  | error e' =>
    simp only [hc, EStateM.Result.error.injEq] at h
    exact h.1 ▸ check_reportsTree t e' hc
  | ok _ =>
    simp only [hc, hlayout] at h
    cases hl : t.lower .structured (.ofTable table) with
    | error e' b =>
      simp only [hl, EStateM.Result.error.injEq] at h
      exact h.1 ▸ lower_failsOnly t _ e' b hl
    | ok r b =>
      have hp := (lower_closes t hl).check hfit
      simp [hl, hp] at h

/-- **Structured lowering closes its labels.**  Take any tree, checked or not, and any builder.
If lowering succeeds, what was there stays and new code follows.  Let `n` be the counter of labels
before and `m` the counter after, and let `m` stay within sixty-four bits: then each of the labels
`n` to `m - 1` is attached to one new instruction and is the target of one new jump, and no other
label is attached or jumped to in the new code.  Hence a compilation whose labels have sixty-four
bits never reports a jump to nowhere or a label that stands twice. -/
theorem lower_label_closed (t : Tree) :
    (∀ b r b', t.lower .structured b = .ok r b' → b'.nextLabel ≤ UInt64.size →
      b'.nextLabel = b.nextLabel + t.labelCount ∧
        ∃ seg, b'.code = b.code ++ seg ∧ ∀ l : Label,
          (seg.filterMap Instruction.label).count l =
              (if b.nextLabel ≤ l.number.toNat ∧ l.number.toNat < b'.nextLabel then 1 else 0) ∧
            (seg.filterMap Instruction.target?).count l =
              (if b.nextLabel ≤ l.number.toNat ∧ l.number.toNat < b'.nextLabel then 1 else 0)) ∧
      ∀ options table e table', options.layout = .structured → t.labelCount ≤ UInt64.size →
        t.compile options table = .error e table' →
          (∀ l, e ≠ .danglingLabel l) ∧ ∀ l, e ≠ .duplicateLabel l := by
  constructor
  · intro b r b' h hfit
    obtain ⟨seg, hc, hn, hl⟩ := (lower_closes t h).segment hfit
    exact ⟨hn, seg, hc, hl⟩
  · intro options table e table' hlayout hfit h
    have he := compile_aboutTree hlayout hfit h
    constructor
    · rintro l rfl
      exact he rfl
    · rintro l rfl
      exact he rfl

/-- The theorem at work on a loop inside a choice, lowered after an instruction with label 1 when
label 3 is next; and a compilation that fails, because `y` is not declared. -/
theorem lower_label_closed_nested :
    let x : Handle := ⟨"x", .integer⟩
    let small : Tree := .binary (.comparison .less) (.reference x) (.constant (.integer 9))
    let t : Tree := .choiceElse small
      (.loop small (.assign x (.binary (.arithmetic .add) (.reference x) (.constant (.integer 1)))))
      (.write (.reference x) true)
    let table : Table := ⟨[⟨"x", .integer, .integer 5⟩], "_tempVar", 0⟩
    let b : Builder := ⟨table, 3, [.carrier ⟨1⟩]⟩
    let bad : Tree := .choice small (.write (.reference ⟨"y", .integer⟩) false)
    (∃ r b', t.lower .structured b = .ok r b' ∧ b'.nextLabel = 7 ∧
      ∃ seg, b'.code = b.code ++ seg ∧
        (seg.filterMap Instruction.label).count ⟨6⟩ = 1 ∧
        (seg.filterMap Instruction.target?).count ⟨6⟩ = 1 ∧
        (seg.filterMap Instruction.label).count ⟨1⟩ = 0) ∧
      ∃ table', bad.compile .standard table = .error (.notDeclared "y") table' ∧
        ∀ l, Error.notDeclared "y" ≠ .danglingLabel l := by
  intro x small t table b bad
  have hrun : (match t.lower .structured b with
      | .ok _ b' => b'.nextLabel == 7
      | .error _ _ => false) = true := by decide +kernel
  obtain ⟨r, b', h, hn⟩ : ∃ r b', t.lower .structured b = .ok r b' ∧ b'.nextLabel = 7 := by
    cases h : t.lower .structured b with
    | ok r b' => exact ⟨r, b', rfl, by simpa [h] using hrun⟩
    | error e b' => simp [h] at hrun
  obtain ⟨-, seg, hc, hl⟩ := (lower_label_closed t).1 b r b' h (by rw [hn]; decide)
  obtain ⟨table', hbad⟩ : ∃ table', bad.compile .standard table =
      .error (.notDeclared "y") table' := ⟨_, rfl⟩
  have hfree := (lower_label_closed bad).2 .standard table _ table' rfl (by decide) hbad
  refine ⟨⟨r, b', h, hn, seg, hc, ?_, ?_, ?_⟩, table', hbad, hfree.1⟩
  · rw [(hl ⟨6⟩).1, hn]
    rfl
  · rw [(hl ⟨6⟩).2, hn]
    rfl
  · rw [(hl ⟨1⟩).1, hn]
    rfl

end Tree
end ProcTree
