/-
# The order of evaluation

Operators are strict, connectives included, and take their operands from left to right.  Evaluating
an expression only reads the table, so this can be said of each node by itself, computed on the
table on which the whole expression is (`Tree.EvaluatesTo`, `Tree.FailsWith`).

* If a tree gives a value, so does every node in it.  No operand is skipped, whatever the value of
  the one before it.
* If an accepted expression fails, its failure is that of the first node, in the order of
  `Tree.postorder`, that fails by itself.  All nodes before that one give values.
-/
import ProcTree.Proofs.Evaluation.Expression

namespace ProcTree
namespace Tree

/-! ## 1. Nodes by themselves -/

/-- On this table the tree gives the value, with any output and any number of rounds, and leaves
table and output alone. -/
def EvaluatesTo (t : Tree) (table : Table) (v : Value) : Prop :=
  ∀ rounds output, t.compute rounds ⟨table, output⟩ = .ok (some v) ⟨table, output⟩

/-- On this table the tree fails with the error, with any output and any number of rounds, and
leaves table and output alone. -/
def FailsWith (t : Tree) (table : Table) (e : Error) : Prop :=
  ∀ rounds output, t.compute rounds ⟨table, output⟩ = .error (.failed e) ⟨table, output⟩

theorem evaluatesTo_of_value {t : Tree} {table : Table} {v : Value} (h : t.value table = .ok v) :
    t.EvaluatesTo table v := fun _ _ => compute_eq_value_iff.mpr ⟨h, rfl⟩

theorem evaluatesTo_iff {t : Tree} {table : Table} {v : Value} :
    t.EvaluatesTo table v ↔ t.value table = .ok v :=
  ⟨fun h => (compute_eq_value_iff.mp (h 0 .unbounded)).1, evaluatesTo_of_value⟩

/-- An operator whose operands have values has the value of the operator on these. -/
theorem evaluatesTo_binary {op : Operator} {a b : Tree} {table : Table} {x y v : Value}
    (ha : a.EvaluatesTo table x) (hb : b.EvaluatesTo table y)
    (h : op.apply (op.resultTy a.staticType b.staticType) x y = .ok v) :
    (Tree.binary op a b).EvaluatesTo table v := by
  rw [evaluatesTo_iff] at ha hb ⊢
  exact value_binary_iff.mpr ⟨x, ha, y, hb, h⟩

/-- An operator whose operands have values fails as the operator does on these. -/
theorem failsWith_binary {op : Operator} {a b : Tree} {table : Table} {x y : Value} {e : Error}
    (ha : a.EvaluatesTo table x) (hb : b.EvaluatesTo table y)
    (h : op.apply (op.resultTy a.staticType b.staticType) x y = .error e) :
    (Tree.binary op a b).FailsWith table e := by
  intro rounds output
  rw [compute, bind_of_ok (ha rounds output), Run.needed, pure_bind, bind_of_ok (hb rounds output),
    Run.needed, pure_bind, h]
  rfl

theorem failsWith_of_value {t : Tree} {table : Table} {e : Error} (hc : t.check = .ok ())
    (ht : t.staticType ≠ none) (h : t.value table = .error e) : t.FailsWith table e := by
  intro rounds output
  rw [compute_expression rounds _ t hc ht, h]
  rfl

/-! ## 2. Values -/

/-- The operands of a tree with a value have values. -/
theorem value_of_child {t c : Tree} {table : Table} {v : Value} (h : t.value table = .ok v)
    (hc : c ∈ t.children) : ∃ w, c.value table = .ok w := by
  cases t with
  | constant x => exact absurd hc (by simp [children])
  | reference g => exact absurd hc (by simp [children])
  | negation a =>
    obtain rfl : c = a := by simpa [children] using hc
    obtain ⟨x, hx, -⟩ := value_negation_iff.mp h
    exact ⟨x, hx⟩
  | binary op a b =>
    obtain ⟨x, hx, y, hy, -⟩ := value_binary_iff.mp h
    rcases (by simpa [children] using hc : c = a ∨ c = b) with rfl | rfl
    · exact ⟨x, hx⟩
    · exact ⟨y, hy⟩
  | _ => exact absurd h (by simp [value])

/-- **All nodes of a tree with a value have values.** -/
theorem value_of_subtree {t : Tree} {table : Table} {v : Value} (h : t.value table = .ok v) :
    ∀ u ∈ t.subtrees, ∃ w, u.value table = .ok w := by
  induction t using induct_children generalizing v with
  | h t ih =>
    intro u hu
    rw [subtrees_eq, List.mem_cons, List.mem_flatMap] at hu
    rcases hu with rfl | ⟨c, hc, hu⟩
    · exact ⟨v, h⟩
    · obtain ⟨w, hw⟩ := value_of_child h hc
      exact ih c hc hw u hu

/-! ## 3. Failures -/

/-- Why the tree has no value on the table, if it has none. -/
def failure? (table : Table) (t : Tree) : Option Error :=
  match t.value table with
  | .ok _ => none
  | .error e => some e

theorem failure?_eq_none_iff {table : Table} {t : Tree} :
    t.failure? table = none ↔ ∃ v, t.value table = .ok v := by
  rw [failure?]
  cases t.value table <;> simp

theorem failure?_eq_some_iff {table : Table} {t : Tree} {e : Error} :
    t.failure? table = some e ↔ t.value table = .error e := by
  rw [failure?]
  cases t.value table <;> simp

/-- An expression fails as its first operand that fails. -/
theorem failure?_of_children {table : Table} {t : Tree} {e : Error} (ht : t.staticType ≠ none)
    (h : t.children.findSome? (failure? table) = some e) : t.failure? table = some e := by
  cases t with
  | constant v => exact absurd h (by simp [children])
  | reference g => exact absurd h (by simp [children])
  | negation a =>
    have ha : a.value table = .error e := by
      simpa [children, failure?_eq_some_iff] using h
    rw [failure?_eq_some_iff, value, ha]
    rfl
  | binary op a b =>
    rw [failure?_eq_some_iff, value]
    cases ha : a.value table with
    | error e' =>
      obtain rfl : e' = e := by simpa [children, failure?, ha] using h
      rfl
    | ok x =>
      have hnone : a.failure? table = none := failure?_eq_none_iff.mpr ⟨x, ha⟩
      have hb : b.value table = .error e := by
        simpa [children, hnone, failure?_eq_some_iff] using h
      rw [hb]
      rfl
  | _ => exact absurd rfl ht

/-- **An accepted expression fails as the first of its nodes that fails.**  The induction is on the
tree: the first failure among the nodes below the root is that of the first operand that fails, by
the induction, and this is the failure of the root. -/
theorem findSome?_failure {table : Table} {t : Tree} (hc : t.check = .ok ())
    (ht : t.staticType ≠ none) : t.postorder.findSome? (failure? table) = t.failure? table := by
  induction t using induct_children with
  | h t ih =>
    have hchildren : ∀ c ∈ t.children,
        c.postorder.findSome? (failure? table) = c.failure? table := by
      intro c hct
      obtain ⟨hcc, htc⟩ := expression_of_child hc ht hct
      exact ih c hct hcc htc
    rw [findSome?_postorder hchildren]
    cases hfirst : t.children.findSome? (failure? table) with
    | none => rfl
    | some e => exact (failure?_of_children ht hfirst).symm

/-- The nodes of an accepted expression are accepted expressions. -/
theorem expression_of_mem_postorder {t u : Tree} (hc : t.check = .ok ())
    (ht : t.staticType ≠ none) (hu : u ∈ t.postorder) :
    u.check = .ok () ∧ u.staticType ≠ none := by
  induction t using induct_children with
  | h t ih =>
    rw [postorder_eq, List.mem_append, List.mem_flatMap, List.mem_singleton] at hu
    rcases hu with ⟨c, hct, hu⟩ | rfl
    · obtain ⟨hcc, htc⟩ := expression_of_child hc ht hct
      exact ih c hct hcc htc hu
    · exact ⟨hc, ht⟩

/-! ## 4. Strictness -/

/-- **Evaluation is strict and goes from left to right.**  If a tree gives a value, every node in it
gives one on the same table.  If an accepted expression stops, then because it fails, and its
failure is that of the first node in it, each node coming after its operands and these from left to
right, that fails on the same table. -/
theorem evaluation_strict_in_order (t : Tree) (rounds : Nat) (m m' : Machine) :
    (∀ v, t.compute rounds m = .ok (some v) m' → ∀ u ∈ t.subtrees, ∃ w, u.EvaluatesTo m.table w) ∧
      (t.check = .ok () → t.staticType ≠ none → ∀ s, t.compute rounds m = .error s m' →
        ∃ e, s = .failed e ∧ ∃ before u after, t.postorder = before ++ u :: after ∧
          (∀ w ∈ before, ∃ v, w.EvaluatesTo m.table v) ∧ u.FailsWith m.table e) := by
  refine ⟨fun v h u hu => ?_, fun hc ht s h => ?_⟩
  · obtain ⟨w, hw⟩ := value_of_subtree (compute_eq_value_iff.mp h).1 u hu
    exact ⟨w, evaluatesTo_of_value hw⟩
  · obtain ⟨e, he, rfl⟩ : ∃ e, t.value m.table = .error e ∧ s = .failed e := by
      rw [compute_expression rounds m t hc ht] at h
      obtain ⟨e, he, hs, -⟩ := Run.ofExcept_eq_error_iff.mp (stopped_of_bind_pure h)
      exact ⟨e, he, hs⟩
    have hfirst := (findSome?_failure hc ht).trans (failure?_eq_some_iff.mpr he)
    obtain ⟨before, u, after, hnodes, hu, hbefore⟩ := List.findSome?_eq_some_iff.mp hfirst
    obtain ⟨hcu, htu⟩ := expression_of_mem_postorder hc ht (u := u) (by simp [hnodes])
    refine ⟨e, rfl, before, u, after, hnodes, fun w hw => ?_, ?_⟩
    · obtain ⟨v, hv⟩ := failure?_eq_none_iff.mp (hbefore w hw)
      exact ⟨v, evaluatesTo_of_value hv⟩
    · exact failsWith_of_value hcu htu (failure?_eq_some_iff.mp hu)

/-- A disjunction that is true by its left operand has evaluated the right one too.  In the next
one the left operand is true again, and the right operand fails twice: by the division, and by a
variable that is not there.  The division comes first. -/
theorem evaluation_strict_in_order_disjunction :
    let x : Handle := ⟨"x", .integer⟩
    let small : Tree := .binary (.comparison .less) (.reference x) (.constant (.integer 1))
    let quotient : Tree :=
      .binary (.wholeDivision .quotient) (.constant (.integer 7)) (.reference x)
    let t : Tree := .binary (.logical .either) small (.negation small)
    let t' : Tree := .binary (.logical .either) small
      (.binary (.comparison .equal) quotient (.reference ⟨"y", .integer⟩))
    let m : Machine := ⟨⟨[⟨"x", .integer, .integer 0⟩], "_tempVar", 0⟩, .unbounded⟩
    (∃ m', t.compute 0 m = .ok (some (.boolean true)) m') ∧
      (∃ w, (Tree.negation small).EvaluatesTo m.table w) ∧
      t'.check = .ok () ∧ t'.staticType ≠ none ∧
      (∃ m', t'.compute 0 m = .error (.failed .divisionByZero) m') ∧
      ∃ before u after, t'.postorder = before ++ u :: after ∧
        (∀ w ∈ before, ∃ v, w.EvaluatesTo m.table v) ∧ u.FailsWith m.table .divisionByZero := by
  intro x small quotient t t' m
  obtain ⟨m₁, h⟩ : ∃ m', t.compute 0 m = .ok (some (.boolean true)) m' := ⟨_, rfl⟩
  obtain ⟨m₂, h'⟩ : ∃ m', t'.compute 0 m = .error (.failed .divisionByZero) m' := ⟨_, rfl⟩
  have hmem : Tree.negation small ∈ t.subtrees := by simp [t, subtrees]
  have hc : t'.check = .ok () := rfl
  have ht : t'.staticType ≠ none := by simp [t', staticType, Operator.resultTy]
  obtain ⟨e, he, hnodes⟩ := (evaluation_strict_in_order t' 0 m m₂).2 hc ht _ h'
  obtain rfl : .divisionByZero = e := Stop.failed.inj he
  exact ⟨⟨m₁, h⟩, (evaluation_strict_in_order t 0 m m₁).1 _ h _ hmem, hc, ht, ⟨m₂, h'⟩, hnodes⟩

end Tree
end ProcTree
