/-
# Parts of a tree

The nodes of a tree are its subtrees.  What a pass needs to know about a tree as a whole is read
off its nodes one by one: the handles it refers to, the variables it assigns, whether it is an
expression.  Where the order matters, the nodes are taken each after its children.
-/
import ProcTree.Proofs.Table
import ProcTree.Typing

namespace ProcTree
namespace Tree

/-! ## 1. Nodes -/

/-- The trees right below the root, in order. -/
def children : Tree → List Tree
  | .constant _ | .reference _ => []
  | .negation a | .assign _ a | .write a _ => [a]
  | .binary _ a b | .choice a b | .loop a b => [a, b]
  | .choiceElse c a b => [c, a, b]
  | .block ts => ts

mutual

/-- The tree and all trees below it. -/
def subtrees : Tree → List Tree
  | .constant v => [.constant v]
  | .reference h => [.reference h]
  | .negation a => .negation a :: a.subtrees
  | .binary op a b => .binary op a b :: (a.subtrees ++ b.subtrees)
  | .assign h a => .assign h a :: a.subtrees
  | .write a n => .write a n :: a.subtrees
  | .choice c a => .choice c a :: (c.subtrees ++ a.subtrees)
  | .choiceElse c a b => .choiceElse c a b :: (c.subtrees ++ (a.subtrees ++ b.subtrees))
  | .loop c a => .loop c a :: (c.subtrees ++ a.subtrees)
  | .block ts => .block ts :: subtreesAll ts

/-- The subtrees of each of the trees, in order. -/
def subtreesAll : List Tree → List Tree
  | [] => []
  | t :: ts => t.subtrees ++ subtreesAll ts

end

theorem subtreesAll_eq (ts : List Tree) : subtreesAll ts = ts.flatMap subtrees := by
  induction ts with
  | nil => rfl
  | cons t ts ih => rw [subtreesAll, ih, List.flatMap_cons]

/-- The subtrees are the tree and the subtrees of its children. -/
theorem subtrees_eq (t : Tree) : t.subtrees = t :: t.children.flatMap subtrees := by
  cases t <;> simp [subtrees, children, subtreesAll_eq]

theorem self_mem_subtrees (t : Tree) : t ∈ t.subtrees := by
  rw [subtrees_eq]
  exact List.mem_cons_self

theorem subtrees_subset_of_child {c t : Tree} (hc : c ∈ t.children) :
    c.subtrees ⊆ t.subtrees := by
  intro u hu
  rw [t.subtrees_eq]
  exact List.mem_cons_of_mem _ (List.mem_flatMap.mpr ⟨c, hc, hu⟩)

/-- **Induction over children**: a tree may assume the property of each tree right below it. -/
theorem induct_children {motive : Tree → Prop}
    (h : ∀ t, (∀ c ∈ t.children, motive c) → motive t) : ∀ t, motive t := by
  intro t
  induction t using Tree.ind with
  | constant v => exact h _ (by simp [children])
  | reference g => exact h _ (by simp [children])
  | negation a iha => exact h _ (by simpa [children] using iha)
  | binary op a b iha ihb => exact h _ (by simpa [children] using ⟨iha, ihb⟩)
  | assign g a iha => exact h _ (by simpa [children] using iha)
  | write a n iha => exact h _ (by simpa [children] using iha)
  | choice c a ihc iha => exact h _ (by simpa [children] using ⟨ihc, iha⟩)
  | choiceElse c a b ihc iha ihb => exact h _ (by simpa [children] using ⟨ihc, iha, ihb⟩)
  | loop c a ihc iha => exact h _ (by simpa [children] using ⟨ihc, iha⟩)
  | block ts ih => exact h _ ih

/-! ## 2. Nodes after their children -/

mutual

/-- The nodes, each after its children, and children from left to right. -/
def postorder : Tree → List Tree
  | .constant v => [.constant v]
  | .reference h => [.reference h]
  | .negation a => a.postorder ++ [.negation a]
  | .binary op a b => a.postorder ++ (b.postorder ++ [.binary op a b])
  | .assign h a => a.postorder ++ [.assign h a]
  | .write a n => a.postorder ++ [.write a n]
  | .choice c a => c.postorder ++ (a.postorder ++ [.choice c a])
  | .choiceElse c a b => c.postorder ++ (a.postorder ++ (b.postorder ++ [.choiceElse c a b]))
  | .loop c a => c.postorder ++ (a.postorder ++ [.loop c a])
  | .block ts => postorderAll ts ++ [.block ts]

/-- The nodes of each of the trees, in order. -/
def postorderAll : List Tree → List Tree
  | [] => []
  | t :: ts => t.postorder ++ postorderAll ts

end

theorem postorderAll_eq (ts : List Tree) : postorderAll ts = ts.flatMap postorder := by
  induction ts with
  | nil => rfl
  | cons t ts ih => rw [postorderAll, ih, List.flatMap_cons]

/-- The nodes are those of the children, and then the root. -/
theorem postorder_eq (t : Tree) : t.postorder = t.children.flatMap postorder ++ [t] := by
  cases t <;> simp [postorder, children, postorderAll_eq]

/-- The nodes are the subtrees. -/
theorem mem_postorder_iff {t u : Tree} : u ∈ t.postorder ↔ u ∈ t.subtrees := by
  induction t using induct_children with
  | h t ih =>
    rw [postorder_eq, subtrees_eq, List.mem_append, List.mem_singleton, List.mem_cons, or_comm,
      List.mem_flatMap, List.mem_flatMap]
    exact or_congr_right (exists_congr fun c => and_congr_right fun hc => ih c hc)

theorem findSome?_flatMap {α β γ : Type} {f : β → Option γ} {g : α → List β} {F : α → Option γ}
    {xs : List α} (h : ∀ x ∈ xs, (g x).findSome? f = F x) :
    (xs.flatMap g).findSome? f = xs.findSome? F := by
  induction xs with
  | nil => rfl
  | cons x xs ih =>
    rw [List.flatMap_cons, List.findSome?_append, h x List.mem_cons_self,
      ih fun y hy => h y (List.mem_cons_of_mem x hy), List.findSome?_cons]
    cases F x <;> rfl

/-- What is found first among the nodes is found in the first child that has it, or else at the
root. -/
theorem findSome?_postorder {α : Type} {f F : Tree → Option α} {t : Tree}
    (h : ∀ c ∈ t.children, c.postorder.findSome? f = F c) :
    t.postorder.findSome? f = (t.children.findSome? F).or (f t) := by
  rw [postorder_eq, List.findSome?_append, findSome?_flatMap h, List.findSome?_singleton]

/-! ## 3. Handles -/

/-- The handle at the root. -/
def rootHandles : Tree → List Handle
  | .reference h | .assign h _ => [h]
  | _ => []

/-- The handle that the root assigns to. -/
def rootTargets : Tree → List Handle
  | .assign h _ => [h]
  | _ => []

/-- The handles of all nodes. -/
def handles (t : Tree) : List Handle := t.subtrees.flatMap rootHandles

/-- The handles of all assigned variables. -/
def targets (t : Tree) : List Handle := t.subtrees.flatMap rootTargets

/-- The table registers every handle of the tree, with the kind that the handle carries. -/
def RegisteredIn (t : Tree) (table : Table) : Prop := ∀ h ∈ t.handles, table.Registers h

theorem handles_subset_of_child {c t : Tree} (hc : c ∈ t.children) : c.handles ⊆ t.handles := by
  intro h hh
  obtain ⟨u, hu, hhu⟩ := List.mem_flatMap.mp hh
  exact List.mem_flatMap.mpr ⟨u, subtrees_subset_of_child hc hu, hhu⟩

theorem targets_subset_of_child {c t : Tree} (hc : c ∈ t.children) : c.targets ⊆ t.targets := by
  intro h hh
  obtain ⟨u, hu, hhu⟩ := List.mem_flatMap.mp hh
  exact List.mem_flatMap.mpr ⟨u, subtrees_subset_of_child hc hu, hhu⟩

/-- The targets are those of the root and of its children. -/
theorem targets_eq (t : Tree) : t.targets = t.rootTargets ++ t.children.flatMap targets := by
  rw [targets, subtrees_eq, List.flatMap_cons, List.flatMap_assoc]
  rfl

theorem targets_subset_handles (t : Tree) : t.targets ⊆ t.handles := by
  intro h hh
  obtain ⟨u, hu, hhu⟩ := List.mem_flatMap.mp hh
  refine List.mem_flatMap.mpr ⟨u, hu, ?_⟩
  cases u <;> simp_all [rootTargets, rootHandles]

theorem reference_mem_handles (h : Handle) : h ∈ (Tree.reference h).handles := by
  simp [handles, subtrees, rootHandles]

theorem target_mem_targets (h : Handle) (a : Tree) : h ∈ (Tree.assign h a).targets := by
  simp [targets, subtrees, rootTargets]

theorem RegisteredIn.of_child {c t : Tree} {table : Table} (h : t.RegisteredIn table)
    (hc : c ∈ t.children) : c.RegisteredIn table :=
  fun g hg => h g (handles_subset_of_child hc hg)

theorem RegisteredIn.of_sameShape {t : Tree} {table table' : Table} (h : t.RegisteredIn table)
    (hs : table.SameShape table') : t.RegisteredIn table' :=
  fun g hg => hs.registers.mpr (h g hg)

theorem RegisteredIn.target {h : Handle} {a : Tree} {table : Table}
    (hr : (Tree.assign h a).RegisteredIn table) : table.Registers h :=
  hr h (targets_subset_handles _ (target_mem_targets h a))

/-! ## 4. What the checker accepts

Each node accepted means its children accepted and its own rule kept. -/

theorem check_negation_iff {a : Tree} : (Tree.negation a).check = .ok () ↔
    a.check = .ok () ∧ a.staticType = some .boolean := by
  simp [check, andThen_eq_ok_iff, checkNegation]

theorem check_binary_iff {op : Operator} {a b : Tree} : (Tree.binary op a b).check = .ok () ↔
    a.check = .ok () ∧ b.check = .ok () ∧ op.check a.staticType b.staticType = .ok () := by
  simp [check, andThen_eq_ok_iff]

theorem check_assign_iff {h : Handle} {a : Tree} : (Tree.assign h a).check = .ok () ↔
    a.check = .ok () ∧ Ty.accepts (some h.kind) a.staticType = true := by
  simp [check, andThen_eq_ok_iff, Handle.check]

theorem check_write_iff {a : Tree} {n : Bool} : (Tree.write a n).check = .ok () ↔
    a.check = .ok () ∧ a.staticType ≠ none := by
  simp [check, andThen_eq_ok_iff, checkWritten]

theorem check_choice_iff {c a : Tree} : (Tree.choice c a).check = .ok () ↔
    c.check = .ok () ∧ c.staticType = some .boolean ∧ a.check = .ok () := by
  simp [check, andThen_eq_ok_iff, checkCondition]

theorem check_choiceElse_iff {c a b : Tree} : (Tree.choiceElse c a b).check = .ok () ↔
    c.check = .ok () ∧ c.staticType = some .boolean ∧ a.check = .ok () ∧ b.check = .ok () := by
  simp [check, andThen_eq_ok_iff, checkCondition]

theorem check_loop_iff {c a : Tree} : (Tree.loop c a).check = .ok () ↔
    c.check = .ok () ∧ c.staticType = some .boolean ∧ a.check = .ok () := by
  simp [check, andThen_eq_ok_iff, checkCondition]

end Tree
end ProcTree
