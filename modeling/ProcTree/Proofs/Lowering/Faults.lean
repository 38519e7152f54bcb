/-
# Comparisons without an instruction

The checker lets any two values of one kind be compared, and the machine compares numbers only.  A
comparison of booleans or of strings is therefore a node that cannot be lowered (`Tree.Compares`).
Lowering comes to a node after its children, from left to right (`Tree.postorder`), and the first
such comparison on this way is the fault of the tree (`Tree.fault?_eq_some_iff`).
-/
import ProcTree.Proofs.Tree

namespace ProcTree

/-- What is wrong with an operator on a left operand of this type, if there is no instruction. -/
def Operator.fault? (op : Operator) (left : Ty) : Option Error :=
  match op with
  | .comparison c =>
    if left = some .boolean ∨ left = some .string then
      some (.unsupportedOperation c.symbol (Ty.name left))
    else none
  | .arithmetic _ | .realDivision | .wholeDivision _ | .logical _ => none

namespace Tree

/-- The tree is a comparison whose left operand is of a kind without an instruction. -/
def Compares (t : Tree) (c : Comparison) (k : Kind) : Prop :=
  (k = .boolean ∨ k = .string) ∧ ∃ a b, t = .binary (.comparison c) a b ∧ a.staticType = some k

/-- What is wrong at the root, if there is no instruction for it. -/
def rootFault? : Tree → Option Error
  | .binary op a _ => op.fault? a.staticType
  | _ => none

/-- What is wrong at the first node that there is no instruction for. -/
def fault? (t : Tree) : Option Error := t.postorder.findSome? rootFault?

theorem rootFault?_eq_some_iff {t : Tree} {e : Error} : t.rootFault? = some e ↔
    ∃ c k, t.Compares c k ∧ e = .unsupportedOperation c.symbol k.name := by
  constructor
  · intro h
    cases t with
    | binary op a b =>
      cases op with
      | comparison c =>
        rw [rootFault?, Operator.fault?] at h
        split at h
        · next hk =>
          rw [Option.some.injEq] at h
          rcases hk with hk | hk
          · exact ⟨c, .boolean, ⟨.inl rfl, a, b, rfl, hk⟩, by rw [← h, hk]; rfl⟩
          · exact ⟨c, .string, ⟨.inr rfl, a, b, rfl, hk⟩, by rw [← h, hk]; rfl⟩
        · cases h
      | _ => cases h
    | _ => cases h
  · rintro ⟨c, k, ⟨hk, a, b, rfl, ha⟩, rfl⟩
    rcases hk with rfl | rfl <;> simp [rootFault?, Operator.fault?, ha, Ty.name]

/-- The fault is that of the first child with a fault, or else that of the root. -/
theorem fault?_eq (t : Tree) : t.fault? = (t.children.findSome? fault?).or t.rootFault? :=
  findSome?_postorder fun _ _ => rfl

theorem findSome?_cons_or {α β : Type} (f : α → Option β) (x : α) (xs : List α) :
    (x :: xs).findSome? f = (f x).or (xs.findSome? f) := by
  rw [List.findSome?_cons]
  cases f x <;> rfl

theorem fault?_constant (v : Value) : (Tree.constant v).fault? = none := by
  simp [fault?_eq, children, rootFault?]

theorem fault?_reference (h : Handle) : (Tree.reference h).fault? = none := by
  simp [fault?_eq, children, rootFault?]

theorem fault?_negation (a : Tree) : (Tree.negation a).fault? = a.fault? := by
  simp [fault?_eq (.negation a), children, rootFault?, findSome?_cons_or]

theorem fault?_binary (op : Operator) (a b : Tree) :
    (Tree.binary op a b).fault? = a.fault?.or (b.fault?.or (op.fault? a.staticType)) := by
  simp [fault?_eq (.binary op a b), children, rootFault?, findSome?_cons_or, Option.or_assoc]

theorem fault?_assign (h : Handle) (a : Tree) : (Tree.assign h a).fault? = a.fault? := by
  simp [fault?_eq (.assign h a), children, rootFault?, findSome?_cons_or]

theorem fault?_write (a : Tree) (n : Bool) : (Tree.write a n).fault? = a.fault? := by
  simp [fault?_eq (.write a n), children, rootFault?, findSome?_cons_or]

theorem fault?_choice (c a : Tree) : (Tree.choice c a).fault? = c.fault?.or a.fault? := by
  simp [fault?_eq (.choice c a), children, rootFault?, findSome?_cons_or]

theorem fault?_choiceElse (c a b : Tree) :
    (Tree.choiceElse c a b).fault? = c.fault?.or (a.fault?.or b.fault?) := by
  simp [fault?_eq (.choiceElse c a b), children, rootFault?, findSome?_cons_or]

theorem fault?_loop (c a : Tree) : (Tree.loop c a).fault? = c.fault?.or a.fault? := by
  simp [fault?_eq (.loop c a), children, rootFault?, findSome?_cons_or]

theorem fault?_block (ts : List Tree) : (Tree.block ts).fault? = ts.findSome? fault? := by
  simp [fault?_eq (.block ts), children, rootFault?]

/-- **The fault of a tree** is that of its first comparison without an instruction. -/
theorem fault?_eq_some_iff {t : Tree} {e : Error} : t.fault? = some e ↔
    ∃ before u after, t.postorder = before ++ u :: after ∧
      (∃ c k, u.Compares c k ∧ e = .unsupportedOperation c.symbol k.name) ∧
        ∀ w ∈ before, ∀ c k, ¬ w.Compares c k := by
  have clean : ∀ w : Tree, w.rootFault? = none ↔ ∀ c k, ¬ w.Compares c k := by
    intro w
    rw [Option.eq_none_iff_forall_ne_some]
    constructor
    · intro h c k hw
      exact h _ (rootFault?_eq_some_iff.mpr ⟨c, k, hw, rfl⟩)
    · intro h e he
      obtain ⟨c, k, hw, -⟩ := rootFault?_eq_some_iff.mp he
      exact h c k hw
  rw [fault?, List.findSome?_eq_some_iff]
  simp only [rootFault?_eq_some_iff, clean]

/-- A tree without such comparisons has no fault. -/
theorem fault?_eq_none_iff {t : Tree} :
    t.fault? = none ↔ ∀ u ∈ t.subtrees, ∀ c k, ¬ u.Compares c k := by
  rw [fault?, List.findSome?_eq_none_iff]
  constructor
  · intro h u hu c k hc
    have hnone := h u (mem_postorder_iff.mpr hu)
    rw [rootFault?_eq_some_iff.mpr ⟨c, k, hc, rfl⟩] at hnone
    cases hnone
  · intro h u hu
    cases hf : u.rootFault? with
    | none => rfl
    | some e =>
      obtain ⟨c, k, hc, -⟩ := rootFault?_eq_some_iff.mp hf
      exact absurd hc (h u (mem_postorder_iff.mp hu) c k)

end Tree
end ProcTree
