/-
# Expressions evaluate to values

A tree that produces a value is an expression.  If the checker accepts it, it is built from
constants, references and operators only, so its value is a function of the table: evaluation
changes nothing, and the number of rounds does not matter (`Tree.compute_expression`).
-/
import ProcTree.Proofs.Evaluation.Soundness

namespace ProcTree
namespace Tree

/-- The value of an expression.  A statement has none. -/
def value (table : Table) : Tree → Except Error Value
  | .constant v => .ok v
  | .reference h => table.valueOf h
  | .negation a => do return .boolean !(← (← a.value table).asBoolean)
  | .binary op a b => do
    let left ← a.value table
    let right ← b.value table
    op.apply (op.resultTy a.staticType b.staticType) left right
  | _ => .error (.missingValue "value")

/-- An operand that only reads the machine gives its value to the construct around it. -/
theorem operand_of_value {β : Type} {a : Tree} {rounds : Nat} {m : Machine} (construct : String)
    (rest : Value → Run β)
    (ha : a.compute rounds m = (Run.ofExcept (a.value m.table) >>= fun v => pure (some v)) m) :
    (a.compute rounds >>= fun r => Run.needed construct r >>= rest) m =
      (Run.ofExcept (a.value m.table) >>= rest) m := by
  cases hv : a.value m.table with
  | error e =>
    rw [hv] at ha
    rw [bind_of_error (ha.trans rfl)]
    rfl
  | ok v =>
    rw [hv] at ha
    rw [bind_of_ok (ha.trans rfl)]
    rfl

/-- **An accepted expression only reads the machine.**  The induction is on the tree: operands of
accepted operators are expressions again. -/
theorem compute_expression (rounds : Nat) (m : Machine) (t : Tree) :
    t.check = .ok () → t.staticType ≠ none →
      t.compute rounds m = (Run.ofExcept (t.value m.table) >>= fun v => pure (some v)) m := by
  induction t using Tree.ind with
  | constant v =>
    intro _ _
    rw [compute, value]
    rfl
  | reference g =>
    intro _ _
    rw [compute, value]
    rfl
  | negation a iha =>
    intro hc _
    obtain ⟨hca, hty⟩ := check_negation_iff.mp hc
    rw [compute, operand_of_value _ _ (iha hca (by simp [hty])), value]
    cases a.value m.table with
    | error e => rfl
    | ok v => cases v <;> rfl
  | binary op a b iha ihb =>
    intro hc _
    obtain ⟨hca, hcb, hop⟩ := check_binary_iff.mp hc
    obtain ⟨-, hta, htb⟩ := Operator.takes_of_check hop
    rw [compute, operand_of_value _ _ (iha hca hta), value]
    cases a.value m.table with
    | error e => rfl
    | ok x =>
      have hb := operand_of_value op.symbol
        (fun y => Run.ofExcept (op.apply (op.resultTy a.staticType b.staticType) x y) >>=
          fun v => pure (some v)) (ihb hcb htb)
      refine hb.trans ?_
      cases b.value m.table with
      | error e => rfl
      | ok y => rfl
  | _ => exact fun _ ht => absurd rfl ht

/-- An operand of which values come without effects gives its value to the construct around it. -/
theorem operand_eq_ok_iff {β : Type} {a : Tree} {rounds : Nat} {m m' : Machine}
    {construct : String} {rest : Value → Run β} {b : β}
    (ha : ∀ {m₁ v}, a.compute rounds m = .ok (some v) m₁ ↔ a.value m.table = .ok v ∧ m₁ = m) :
    (a.compute rounds >>= fun r => Run.needed construct r >>= rest) m = .ok b m' ↔
      ∃ v, a.value m.table = .ok v ∧ rest v m = .ok b m' := by
  simp only [bind_eq_ok_iff, Run.needed_eq_ok_iff]
  constructor
  · rintro ⟨r, m₁, hr, v, m₂, ⟨rfl, rfl⟩, hrest⟩
    obtain ⟨hv, rfl⟩ := ha.mp hr
    exact ⟨v, hv, hrest⟩
  · rintro ⟨v, hv, hrest⟩
    exact ⟨some v, m, ha.mpr ⟨hv, rfl⟩, v, m, ⟨rfl, rfl⟩, hrest⟩

theorem value_negation_iff {table : Table} {a : Tree} {v : Value} :
    (Tree.negation a).value table = .ok v ↔
      ∃ x, a.value table = .ok x ∧ ∃ b, x.asBoolean = .ok b ∧ v = .boolean !b := by
  rw [value]
  cases a.value table with
  | error e => simp [bind, Except.bind]
  | ok x =>
    cases h : x.asBoolean with
    | error e => simp [bind, Except.bind, h]
    | ok b =>
      simp only [bind, Except.bind, pure, Except.pure, h, Except.ok.injEq, exists_eq_left']
      exact eq_comm

theorem value_binary_iff {table : Table} {op : Operator} {a b : Tree} {v : Value} :
    (Tree.binary op a b).value table = .ok v ↔
      ∃ x, a.value table = .ok x ∧ ∃ y, b.value table = .ok y ∧
        op.apply (op.resultTy a.staticType b.staticType) x y = .ok v := by
  rw [value]
  cases a.value table <;> cases b.value table <;> simp [bind, Except.bind]

/-- **A value is the value of an expression**, checked or not.  Evaluation gives one exactly when
the tree has it on the table, and has then done nothing: an operand that is a statement gives no
value to the operator around it.  The induction is on the tree. -/
theorem compute_eq_value_iff {rounds : Nat} {t : Tree} {m m' : Machine} {v : Value} :
    t.compute rounds m = .ok (some v) m' ↔ t.value m.table = .ok v ∧ m' = m := by
  induction t using Tree.ind generalizing m m' v with
  | constant w => simp [compute, value, eq_comm]
  | reference g =>
    simp only [compute, bind_eq_ok_iff, Run.read_apply, Run.ofExcept_eq_ok_iff, pure_eq_ok_iff,
      Option.some.injEq, value]
    constructor
    · rintro ⟨w, m₁, ⟨hw, rfl⟩, rfl, rfl⟩
      exact ⟨hw, rfl⟩
    · rintro ⟨hv, rfl⟩
      exact ⟨v, m', ⟨hv, rfl⟩, rfl, rfl⟩
  | negation a iha =>
    simp only [compute, operand_eq_ok_iff iha, bind_eq_ok_iff, Run.ofExcept_eq_ok_iff,
      pure_eq_ok_iff, Option.some.injEq, value_negation_iff]
    constructor
    · rintro ⟨x, hx, b, m₁, ⟨hb, rfl⟩, rfl, rfl⟩
      exact ⟨⟨x, hx, b, hb, rfl⟩, rfl⟩
    · rintro ⟨⟨x, hx, b, hb, rfl⟩, rfl⟩
      exact ⟨x, hx, b, m', ⟨hb, rfl⟩, rfl, rfl⟩
  | binary op a b iha ihb =>
    simp only [compute, operand_eq_ok_iff iha, operand_eq_ok_iff ihb, bind_eq_ok_iff,
      Run.ofExcept_eq_ok_iff, pure_eq_ok_iff, Option.some.injEq, value_binary_iff]
    constructor
    · rintro ⟨x, hx, y, hy, w, m₁, ⟨hw, rfl⟩, rfl, rfl⟩
      exact ⟨⟨x, hx, y, hy, hw⟩, rfl⟩
    · rintro ⟨⟨x, hx, y, hy, hw⟩, rfl⟩
      exact ⟨x, hx, y, hy, v, m', ⟨hw, rfl⟩, rfl, rfl⟩
  | _ =>
    refine ⟨fun h => ?_, fun h => absurd h.1 (by simp [value])⟩
    exact absurd (compute_statement rfl rounds m _ m' h) (by simp)

/-- The value of an expression has its static type. -/
theorem kind_of_value {t : Tree} {table : Table} {v : Value} (hw : table.WellFormed)
    (hr : t.RegisteredIn table) (hc : t.check = .ok ()) (ht : t.staticType ≠ none)
    (h : t.value table = .ok v) : some v.kind = t.staticType := by
  have hrun := compute_expression 0 ⟨table, .unbounded⟩ t hc ht
  rw [h] at hrun
  exact kind_of_compute (m := ⟨table, .unbounded⟩) hw hr (hrun.trans rfl)

/-- The parts of an accepted expression are accepted expressions. -/
theorem expression_of_child {t c : Tree} (hc : t.check = .ok ()) (ht : t.staticType ≠ none)
    (h : c ∈ t.children) : c.check = .ok () ∧ c.staticType ≠ none := by
  cases t with
  | constant v => exact absurd h (by simp [children])
  | reference g => exact absurd h (by simp [children])
  | negation a =>
    obtain rfl : c = a := by simpa [children] using h
    obtain ⟨hca, hty⟩ := check_negation_iff.mp hc
    exact ⟨hca, by simp [hty]⟩
  | binary op a b =>
    obtain ⟨hca, hcb, hop⟩ := check_binary_iff.mp hc
    obtain ⟨-, hta, htb⟩ := Operator.takes_of_check hop
    rcases (by simpa [children] using h : c = a ∨ c = b) with rfl | rfl
    · exact ⟨hca, hta⟩
    · exact ⟨hcb, htb⟩
  | _ => exact absurd rfl ht

/-- An accepted expression assigns to nothing. -/
theorem targets_eq_nil {t : Tree} (hc : t.check = .ok ()) (ht : t.staticType ≠ none) :
    t.targets = [] := by
  induction t using induct_children with
  | h t ih =>
    have hroot : t.rootTargets = [] := by
      cases t with
      | assign h a => exact absurd rfl ht
      | _ => rfl
    rw [targets_eq, hroot, List.nil_append, List.flatMap_eq_nil_iff]
    intro c hct
    obtain ⟨hcc, htc⟩ := expression_of_child hc ht hct
    exact ih c hct hcc htc

end Tree
end ProcTree
