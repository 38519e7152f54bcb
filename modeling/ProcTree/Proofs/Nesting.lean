/-
# Blocks within blocks

A block within a block groups statements that stand in a row anyway.  No pass over trees sees the
difference: not the types, not the checker, not evaluation, not lowering.

* `Tree.Interchangeable`: two trees that no pass tells apart, from any state and however the pass
  ends.  Each construct keeps it, so that one tree may stand for the other anywhere in a program.
* `Tree.check_block_append`, `Tree.compute_block_append`, `Tree.lower_block_append`: each pass over
  a block of two lists is the pass over a block of the first and then over a block of the second.
  From these alone it follows that a block may be opened in place.
* `Tree.flat`: the tree with all blocks opened that stand right below a block
  (`Tree.unnested_flat`).  It is interchangeable with the tree (`Tree.flat_interchangeable`).
-/
import ProcTree.Lowering
import ProcTree.Proofs.Outcome
import ProcTree.Proofs.Rules

namespace ProcTree
namespace Tree

/-! ## 1. Trees that no pass tells apart -/

/-- The trees have one static type, the checker says the same of both, and evaluating and lowering
them are the same computations: on every state they end alike, in success or in failure, and leave
the same state. -/
structure Interchangeable (t u : Tree) : Prop where
  staticType : t.staticType = u.staticType
  check : t.check = u.check
  compute : ∀ rounds, t.compute rounds = u.compute rounds
  lower : ∀ layout, t.lower layout = u.lower layout

namespace Interchangeable

variable {t u w a a' b b' c c' : Tree}

theorem refl (t : Tree) : t.Interchangeable t := ⟨rfl, rfl, fun _ => rfl, fun _ => rfl⟩

theorem symm (h : t.Interchangeable u) : u.Interchangeable t :=
  ⟨h.staticType.symm, h.check.symm, fun n => (h.compute n).symm, fun l => (h.lower l).symm⟩

theorem trans (h : t.Interchangeable u) (h' : u.Interchangeable w) : t.Interchangeable w :=
  ⟨h.staticType.trans h'.staticType, h.check.trans h'.check,
    fun n => (h.compute n).trans (h'.compute n), fun l => (h.lower l).trans (h'.lower l)⟩

/-- Interpretation is a check, an evaluation and the close of the output. -/
theorem interpret (h : t.Interchangeable u) (rounds : Nat) :
    t.interpret rounds = u.interpret rounds := by
  simp only [Tree.interpret, h.check, h.compute]

/-- Compilation is a check, a lowering and the check of the labels. -/
theorem compile (h : t.Interchangeable u) (options : Options) :
    t.compile options = u.compile options := by
  funext table
  simp only [Tree.compile, h.check, h.lower]

/-! Each construct around interchangeable trees.  What a pass asks of a child is its type and the
pass itself. -/

theorem negation (h : a.Interchangeable a') : (negation a).Interchangeable (negation a') := by
  refine ⟨rfl, ?_, fun n => ?_, fun l => ?_⟩
  · simp only [Tree.check, h.check, h.staticType]
  · simp only [Tree.compute, h.compute]
  · simp only [Tree.lower, h.lower]

theorem binary (op : Operator) (ha : a.Interchangeable a') (hb : b.Interchangeable b') :
    (binary op a b).Interchangeable (binary op a' b') := by
  refine ⟨?_, ?_, fun n => ?_, fun l => ?_⟩
  · simp only [Tree.staticType, ha.staticType, hb.staticType]
  · simp only [Tree.check, ha.check, hb.check, ha.staticType, hb.staticType]
  · simp only [Tree.compute, ha.compute, hb.compute, ha.staticType, hb.staticType]
  · simp only [Tree.lower, ha.lower, hb.lower, ha.staticType, hb.staticType]

theorem assign (target : Handle) (h : a.Interchangeable a') :
    (assign target a).Interchangeable (assign target a') := by
  refine ⟨rfl, ?_, fun n => ?_, fun l => ?_⟩
  · simp only [Tree.check, h.check, h.staticType]
  · simp only [Tree.compute, h.compute]
  · simp only [Tree.lower, h.lower]

theorem write (newline : Bool) (h : a.Interchangeable a') :
    (write a newline).Interchangeable (write a' newline) := by
  refine ⟨rfl, ?_, fun n => ?_, fun l => ?_⟩
  · simp only [Tree.check, h.check, h.staticType]
  · simp only [Tree.compute, h.compute]
  · simp only [Tree.lower, h.lower]

theorem choice (hc : c.Interchangeable c') (ha : a.Interchangeable a') :
    (choice c a).Interchangeable (choice c' a') := by
  refine ⟨rfl, ?_, fun n => ?_, fun l => ?_⟩
  · simp only [Tree.check, hc.check, hc.staticType, ha.check]
  · simp only [Tree.compute, hc.compute, ha.compute]
  · simp only [Tree.lower, hc.lower, ha.lower]

theorem choiceElse (hc : c.Interchangeable c') (ha : a.Interchangeable a')
    (hb : b.Interchangeable b') :
    (choiceElse c a b).Interchangeable (choiceElse c' a' b') := by
  refine ⟨rfl, ?_, fun n => ?_, fun l => ?_⟩
  · simp only [Tree.check, hc.check, hc.staticType, ha.check, hb.check]
  · simp only [Tree.compute, hc.compute, ha.compute, hb.compute]
  · simp only [Tree.lower, hc.lower, ha.lower, hb.lower]

theorem loop (hc : c.Interchangeable c') (ha : a.Interchangeable a') :
    (loop c a).Interchangeable (loop c' a') := by
  refine ⟨rfl, ?_, fun n => ?_, fun l => ?_⟩
  · simp only [Tree.check, hc.check, hc.staticType, ha.check]
  · simp only [Tree.compute, hc.compute, ha.compute]
  · simp only [Tree.lower, hc.lower, ha.lower]

/-- The only statement of a block. -/
theorem only (h : t.Interchangeable u) : (block [t]).Interchangeable (block [u]) := by
  refine ⟨rfl, ?_, fun n => ?_, fun l => ?_⟩
  · simp only [Tree.check, checkAll, h.check]
  · simp only [Tree.compute, computeAll, h.compute]
  · simp only [Tree.lower, lowerAll, h.lower]

end Interchangeable

/-! ## 2. Blocks of two lists -/

theorem computeAll_eq_forM (rounds : Nat) (ts : List Tree) :
    computeAll rounds ts = forM ts fun t => discard (t.compute rounds) := by
  induction ts with
  | nil => rw [computeAll, List.forM_nil]
  | cons t ts ih => rw [computeAll, ih, List.forM_cons]

theorem lowerAll_eq_forM (layout : ChoiceLayout) (ts : List Tree) :
    lowerAll layout ts = forM ts fun t => discard (t.lower layout) := by
  induction ts with
  | nil => rw [lowerAll, List.forM_nil]
  | cons t ts ih => rw [lowerAll, ih, List.forM_cons]

theorem check_block_append (ts us : List Tree) :
    (block (ts ++ us)).check = ((block ts).check >>= fun _ => (block us).check) := by
  simp only [check, checkAll_eq_forM, List.forM_append]

theorem compute_block_append (rounds : Nat) (ts us : List Tree) :
    (block (ts ++ us)).compute rounds =
      ((block ts).compute rounds >>= fun _ => (block us).compute rounds) := by
  simp only [compute, computeAll_eq_forM, List.forM_append, bind_assoc, pure_bind]

theorem lower_block_append (layout : ChoiceLayout) (ts us : List Tree) :
    (block (ts ++ us)).lower layout =
      ((block ts).lower layout >>= fun _ => (block us).lower layout) := by
  simp only [lower, lowerAll_eq_forM, List.forM_append, bind_assoc, pure_bind]

namespace Interchangeable

/-- Blocks with interchangeable beginnings and interchangeable ends. -/
theorem append {ts ts' us us' : List Tree} (ht : (block ts).Interchangeable (block ts'))
    (hu : (block us).Interchangeable (block us')) :
    (block (ts ++ us)).Interchangeable (block (ts' ++ us')) := by
  refine ⟨rfl, ?_, fun n => ?_, fun l => ?_⟩
  · rw [check_block_append, ht.check, hu.check, ← check_block_append]
  · rw [compute_block_append, ht.compute, hu.compute, ← compute_block_append]
  · rw [lower_block_append, ht.lower, hu.lower, ← lower_block_append]

/-- A block of nothing but a block. -/
theorem inner (ts : List Tree) : (block [block ts]).Interchangeable (block ts) := by
  refine ⟨rfl, ?_, fun n => ?_, fun l => ?_⟩
  · simp only [Tree.check, checkAll, andThen_ok]
  · simp only [Tree.compute, computeAll, discard_eq_bind, bind_assoc, pure_bind]
  · simp only [Tree.lower, lowerAll, discard_eq_bind, bind_assoc, pure_bind]

end Interchangeable

/-! ## 3. Opened blocks -/

/-- The statements that the tree is made of: those of a block, or the tree itself. -/
def statements : Tree → List Tree
  | .block ts => ts
  | t => [t]

mutual

/-- The tree with every block that stands right below a block replaced by its statements. -/
def flat : Tree → Tree
  | .constant v => .constant v
  | .reference h => .reference h
  | .negation a => .negation a.flat
  | .binary op a b => .binary op a.flat b.flat
  | .assign target a => .assign target a.flat
  | .write a newline => .write a.flat newline
  | .choice c a => .choice c.flat a.flat
  | .choiceElse c a b => .choiceElse c.flat a.flat b.flat
  | .loop c a => .loop c.flat a.flat
  | .block ts => .block (flatAll ts)

/-- The statements of the trees, one tree after another. -/
def flatAll : List Tree → List Tree
  | [] => []
  | t :: ts => t.flat.statements ++ flatAll ts

end

theorem flatAll_eq (ts : List Tree) : flatAll ts = ts.flatMap fun t => t.flat.statements := by
  induction ts with
  | nil => rfl
  | cons t ts ih => rw [flatAll, ih, List.flatMap_cons]

/-- No block of the tree stands right below a block. -/
def Unnested (t : Tree) : Prop := ∀ ts, block ts ∈ t.subtrees → ∀ us, block us ∉ ts

/-- A tree is unnested when its children are, and none of them is a block if it is a block
itself. -/
theorem unnested_iff {t : Tree} :
    t.Unnested ↔ (∀ ts, t = block ts → ∀ us, block us ∉ ts) ∧ ∀ c ∈ t.children, c.Unnested := by
  simp only [Unnested, subtrees_eq t, List.mem_cons, List.mem_flatMap]
  constructor
  · intro h
    exact ⟨fun ts ht => h ts (.inl ht.symm), fun c hc ts hts => h ts (.inr ⟨c, hc, hts⟩)⟩
  · rintro ⟨hroot, hbelow⟩ ts (rfl | ⟨c, hc, hts⟩)
    · exact hroot ts rfl
    · exact hbelow c hc ts hts

/-- The statements of an unnested tree are unnested, and none is a block. -/
theorem Unnested.statement {t s : Tree} (h : t.Unnested) (hs : s ∈ t.statements) :
    s.Unnested ∧ ∀ us, s ≠ block us := by
  obtain ⟨hroot, hbelow⟩ := unnested_iff.mp h
  cases t with
  | block ts => exact ⟨hbelow s hs, fun us e => hroot ts rfl us (e ▸ hs)⟩
  | _ =>
    obtain rfl := List.mem_singleton.mp hs
    exact ⟨h, by simp⟩

/-- Below anything but a block, the children are opened each by itself. -/
theorem children_flat {t : Tree} (h : ∀ ts, t ≠ block ts) :
    t.flat.children = t.children.map flat := by
  cases t with
  | block ts => exact absurd rfl (h ts)
  | _ => rfl

/-- **Opening leaves no block right below a block.**  The induction is on the tree: what a block
gets in place of a child are the statements of an unnested tree. -/
theorem unnested_flat (t : Tree) : t.flat.Unnested := by
  induction t using induct_children with
  | h t ih =>
  rw [unnested_iff]
  by_cases hblock : ∃ ts, t = block ts
  · obtain ⟨ts, rfl⟩ := hblock
    have hstatement : ∀ s ∈ flatAll ts, s.Unnested ∧ ∀ us, s ≠ block us := by
      intro s hs
      rw [flatAll_eq, List.mem_flatMap] at hs
      obtain ⟨t, ht, hs⟩ := hs
      exact (ih t ht).statement hs
    rw [flat]
    refine ⟨?_, fun s hs => (hstatement s hs).1⟩
    rintro _ ⟨⟩ us hus
    exact (hstatement _ hus).2 us rfl
  · have hother : ∀ ts, t ≠ block ts := fun ts e => hblock ⟨ts, e⟩
    refine ⟨fun ts e => ?_, ?_⟩
    · cases t with
      | block us => exact absurd rfl (hother us)
      | _ => exact absurd e (by simp [flat])
    · rw [children_flat hother]
      simpa using ih

example (x y : Handle) :
    (block [block [block [reference x]], block [], reference y]).flat =
      block [reference x, reference y] := rfl

/-- A block of the statements of a tree stands for a block of the tree. -/
theorem statements_interchangeable (t : Tree) :
    (block t.statements).Interchangeable (block [t]) := by
  cases t with
  | block ts => exact (Interchangeable.inner ts).symm
  | _ => exact .refl _

/-- **A tree and the tree with its blocks opened are interchangeable.**  The induction is on the
tree; in a block it goes through the statements, each of them opened in place. -/
theorem flat_interchangeable (t : Tree) : t.flat.Interchangeable t := by
  induction t using Tree.ind with
  | constant v => exact .refl _
  | reference h => exact .refl _
  | negation a iha => exact iha.negation
  | binary op a b iha ihb => exact iha.binary op ihb
  | assign target a iha => exact iha.assign target
  | write a newline iha => exact iha.write newline
  | choice c a ihc iha => exact ihc.choice iha
  | choiceElse c a b ihc iha ihb => exact ihc.choiceElse iha ihb
  | loop c a ihc iha => exact ihc.loop iha
  | block ts ih =>
    rw [flat, flatAll_eq]
    induction ts with
    | nil => exact .refl _
    | cons t ts ihts =>
      rw [List.flatMap_cons, ← List.singleton_append]
      refine .append ?_ (ihts fun u hu => ih u (List.mem_cons_of_mem t hu))
      exact (statements_interchangeable t.flat).trans (ih t List.mem_cons_self).only

/-- **Nesting of blocks is irrelevant to every pass.**  The tree with its blocks opened has no block
right below a block.  It has the same static type; the checker accepts it or reports the same error;
from every machine, with the same rounds, it evaluates to the same value, failure or lack of rounds
and leaves the same table and output; and from every builder, in both layouts, it lowers to the same
result or failure and leaves the same instructions, labels and table.  So interpretation and
compilation cannot tell the two apart either. -/
theorem block_nesting_irrelevant (t : Tree) :
    t.flat.Unnested ∧ t.flat.staticType = t.staticType ∧ t.flat.check = t.check ∧
      (∀ rounds m, t.flat.compute rounds m = t.compute rounds m) ∧
      (∀ layout b, t.flat.lower layout b = t.lower layout b) ∧
      (∀ rounds m, t.flat.interpret rounds m = t.interpret rounds m) ∧
      ∀ options table, t.flat.compile options table = t.compile options table := by
  have h := t.flat_interchangeable
  exact ⟨t.unnested_flat, h.staticType, h.check, fun n => congrFun (h.compute n),
    fun l => congrFun (h.lower l), fun n => congrFun (h.interpret n),
    fun o => congrFun (h.compile o)⟩

end Tree
end ProcTree
