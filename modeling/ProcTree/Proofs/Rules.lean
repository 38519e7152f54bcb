/-
# The rules of typing

Every construct has one rule about the types at it, and a program is well typed when every node
keeps the rule of its construct (`Tree.KeepsRule`).  The rules are stated here on static types
alone, and `Tree.Breaks` says what is reported of a node that breaks one.

Nodes are judged in an order (`Tree.judged`): a condition is settled, its own rule included, before
the branches or the body that it guards, and everywhere else a node is judged after its children,
which are taken from left to right.  The checker judges the nodes in this order and stops at the
first that breaks its rule (`Tree.check_eq_forM`), so it accepts the well typed trees and reports
the first violation of all others (`Tree.check_decides_rules`).
-/
import Mathlib.Data.List.Perm.Basic
import ProcTree.Proofs.Tree

namespace ProcTree

/-! ## 1. Rules -/

/-- The types of numbers. -/
def Ty.IsNumber (ty : Ty) : Prop := ty = some .integer ∨ ty = some .real

/-- The operator has a meaning on operands of these types. -/
def Operator.Suits (op : Operator) (left right : Ty) : Prop :=
  match op with
  | .comparison _ => left = right ∨ (Ty.IsNumber left ∧ Ty.IsNumber right)
  | .arithmetic _ | .realDivision => Ty.IsNumber left ∧ Ty.IsNumber right
  | .wholeDivision _ => left = some .integer ∧ right = some .integer
  | .logical _ => left = some .boolean ∧ right = some .boolean

/-- A variable of this kind takes a value of this type: one of its own kind, or an integer where
it is real. -/
def Kind.Takes (target : Kind) (value : Ty) : Prop :=
  value = some target ∨ (target = .real ∧ value = some .integer)

namespace Tree

/-- The root keeps the rule of its construct. -/
def KeepsRule : Tree → Prop
  | .constant _ | .reference _ | .block _ => True
  | .negation a => a.staticType = some .boolean
  | .binary op a b =>
    a.staticType ≠ none ∧ b.staticType ≠ none ∧ op.Suits a.staticType b.staticType
  | .assign h a => h.kind.Takes a.staticType
  | .write a _ => a.staticType ≠ none
  | .choice c _ | .choiceElse c _ _ | .loop c _ => c.staticType = some .boolean

/-- What is reported of a tree whose root breaks the rule of its construct.  That an operand has no
value is reported before its type is looked at. -/
inductive Breaks : Tree → Error → Prop
  | negation {a : Tree} (h : a.staticType ≠ some .boolean) :
    Breaks (.negation a) (.invalidOperands "not" "NOT requires a boolean operand")
  | valueless {op : Operator} {a b : Tree} (h : a.staticType = none ∨ b.staticType = none) :
    Breaks (.binary op a b) (.missingValue op.symbol)
  | operands {op : Operator} {a b : Tree} (ha : a.staticType ≠ none) (hb : b.staticType ≠ none)
    (h : ¬ op.Suits a.staticType b.staticType) :
    Breaks (.binary op a b) (.invalidOperands op.symbol op.requirement)
  | assign {target : Handle} {a : Tree} (h : ¬ target.kind.Takes a.staticType) :
    Breaks (.assign target a)
      (.invalidAssignment target.name target.kind.name (Ty.name a.staticType))
  | write {a : Tree} {newline : Bool} (h : a.staticType = none) :
    Breaks (.write a newline) (.missingValue "write")
  | choice {c a : Tree} (h : c.staticType ≠ some .boolean) :
    Breaks (.choice c a) (.conditionNotBoolean "if" (Ty.name c.staticType))
  | choiceElse {c a b : Tree} (h : c.staticType ≠ some .boolean) :
    Breaks (.choiceElse c a b) (.conditionNotBoolean "if" (Ty.name c.staticType))
  | loop {c a : Tree} (h : c.staticType ≠ some .boolean) :
    Breaks (.loop c a) (.conditionNotBoolean "while" (Ty.name c.staticType))

/-! ## 2. The order of judgement -/

mutual

/-- The nodes in the order in which they are judged: a choice or a loop right after its condition
and all that is in it, any other node after its children. -/
def judged : Tree → List Tree
  | .constant v => [.constant v]
  | .reference h => [.reference h]
  | .negation a => a.judged ++ [.negation a]
  | .binary op a b => a.judged ++ (b.judged ++ [.binary op a b])
  | .assign h a => a.judged ++ [.assign h a]
  | .write a n => a.judged ++ [.write a n]
  | .choice c a => c.judged ++ .choice c a :: a.judged
  | .choiceElse c a b => c.judged ++ .choiceElse c a b :: (a.judged ++ b.judged)
  | .loop c a => c.judged ++ .loop c a :: a.judged
  | .block ts => judgedAll ts ++ [.block ts]

/-- The nodes of each of the trees, in order. -/
def judgedAll : List Tree → List Tree
  | [] => []
  | t :: ts => t.judged ++ judgedAll ts

end

theorem judgedAll_eq (ts : List Tree) : judgedAll ts = ts.flatMap judged := by
  induction ts with
  | nil => rfl
  | cons t ts ih => rw [judgedAll, ih, List.flatMap_cons]

/-- The children that are judged before the root. -/
def judgedBefore : Tree → List Tree
  | .choice c _ | .choiceElse c _ _ | .loop c _ => [c]
  | t => t.children

/-- The children that are judged after the root, because it guards them. -/
def judgedAfter : Tree → List Tree
  | .choice _ a | .loop _ a => [a]
  | .choiceElse _ a b => [a, b]
  | _ => []

theorem children_eq (t : Tree) : t.children = t.judgedBefore ++ t.judgedAfter := by
  cases t <;> simp [children, judgedBefore, judgedAfter]

theorem judged_eq (t : Tree) :
    t.judged = t.judgedBefore.flatMap judged ++ t :: t.judgedAfter.flatMap judged := by
  cases t <;> simp [judged, judgedBefore, judgedAfter, children, judgedAll_eq]

/-- **Every node is judged once.** -/
theorem judged_perm (t : Tree) : t.judged.Perm t.subtrees := by
  induction t using induct_children with
  | h t ih =>
    have hchildren : (t.children.flatMap judged).Perm (t.children.flatMap subtrees) :=
      List.Perm.flatMap_left t.children ih
    rw [children_eq, List.flatMap_append] at hchildren
    rw [subtrees_eq, children_eq, judged_eq]
    exact List.perm_middle.trans (hchildren.cons t)

/-! ## 3. The checker -/

/-- The answer to the rule of the root alone. -/
def rootCheck : Tree → Except Error Unit
  | .constant _ | .reference _ | .block _ => .ok ()
  | .negation a => checkNegation a.staticType
  | .binary op a b => op.check a.staticType b.staticType
  | .assign target a => target.check a.staticType
  | .write a _ => checkWritten a.staticType
  | .choice c _ | .choiceElse c _ _ => checkCondition "if" c.staticType
  | .loop c _ => checkCondition "while" c.staticType

theorem checkAll_eq_forM (ts : List Tree) : checkAll ts = forM ts check := by
  induction ts with
  | nil => rfl
  | cons t ts ih => rw [checkAll, ih, List.forM_cons]

/-- Nothing after a check changes its answer. -/
theorem andThen_ok (x : Except Error Unit) : (x >>= fun _ => .ok ()) = x := by
  cases x <;> rfl

/-- A tree is checked by its children and its own rule. -/
theorem check_eq (t : Tree) : t.check = (do
    forM t.judgedBefore check
    t.rootCheck
    forM t.judgedAfter check) := by
  have hok : (pure () : Except Error Unit) = .ok () := rfl
  cases t <;>
    simp [check, judgedBefore, judgedAfter, children, rootCheck, checkAll_eq_forM, andThen_ok, hok]

/-- The nodes of trees that answer to the checker as their nodes do, one tree after another. -/
theorem forM_flatMap_judged (ts : List Tree) (ih : ∀ t ∈ ts, t.check = forM t.judged rootCheck) :
    forM (ts.flatMap judged) rootCheck = forM ts check := by
  induction ts with
  | nil => rfl
  | cons t ts ihts =>
    rw [List.flatMap_cons, List.forM_append, List.forM_cons, ih t List.mem_cons_self,
      ihts fun u hu => ih u (List.mem_cons_of_mem t hu)]

/-- **The checker judges the nodes one after another.** -/
theorem check_eq_forM (t : Tree) : t.check = forM t.judged rootCheck := by
  induction t using induct_children with
  | h t ih =>
    rw [children_eq] at ih
    rw [check_eq, judged_eq, List.forM_append, List.forM_cons,
      forM_flatMap_judged _ fun c hc => ih c (List.mem_append_left _ hc),
      forM_flatMap_judged _ fun c hc => ih c (List.mem_append_right _ hc)]

/-! ## 4. Decision -/

/-- Checks one after another accept when each of them does. -/
theorem forM_eq_ok_iff {f : Tree → Except Error Unit} {ts : List Tree} :
    forM ts f = .ok () ↔ ∀ t ∈ ts, f t = .ok () := by
  induction ts with
  | nil => simp [pure, Except.pure]
  | cons t ts ih => rw [List.forM_cons, andThen_eq_ok_iff, ih, List.forall_mem_cons]

/-- Checks one after another fail with the error of the first that does not accept. -/
theorem forM_eq_error_iff {f : Tree → Except Error Unit} {ts : List Tree} {e : Error} :
    forM ts f = .error e ↔ ∃ before u after, ts = before ++ u :: after ∧
      (∀ w ∈ before, f w = .ok ()) ∧ f u = .error e := by
  constructor
  · intro h
    induction ts with
    | nil => exact nomatch h
    | cons t ts ih =>
      rw [List.forM_cons] at h
      cases ht : f t with
      | error e' =>
        rw [ht] at h
        exact ⟨[], t, ts, rfl, by simp, ht.trans h⟩
      | ok =>
        rw [ht] at h
        obtain ⟨before, u, after, rfl, hbefore, hu⟩ := ih h
        exact ⟨t :: before, u, after, rfl, List.forall_mem_cons.mpr ⟨ht, hbefore⟩, hu⟩
  · rintro ⟨before, u, after, rfl, hbefore, hu⟩
    rw [List.forM_append, forM_eq_ok_iff.mpr hbefore, List.forM_cons, hu]
    rfl

end Tree

theorem Ty.isNumeric_iff {ty : Ty} : Ty.isNumeric ty = true ↔ Ty.IsNumber ty := by
  rcases ty with _ | k
  · simp [Ty.isNumeric, Ty.IsNumber]
  · cases k <;> simp [Ty.isNumeric, Kind.isNumeric, Ty.IsNumber]

theorem Operator.takes_iff {op : Operator} {left right : Ty} :
    op.takes left right = true ↔ op.Suits left right := by
  have hnumbers : (Ty.isNumeric left && Ty.isNumeric right) = true ↔
      Ty.IsNumber left ∧ Ty.IsNumber right := by
    rw [Bool.and_eq_true, Ty.isNumeric_iff, Ty.isNumeric_iff]
  have hboth : ∀ k : Kind, (decide (left = some k) && decide (right = some k)) = true ↔
      left = some k ∧ right = some k := fun k => by
    rw [Bool.and_eq_true, decide_eq_true_iff, decide_eq_true_iff]
  cases op with
  | comparison o => exact (Bool.or_eq_true _ _).to_iff.trans (or_congr decide_eq_true_iff hnumbers)
  | arithmetic o => exact hnumbers
  | realDivision => exact hnumbers
  | wholeDivision o => exact hboth .integer
  | logical o => exact hboth .boolean

theorem Ty.accepts_iff {target : Kind} {value : Ty} :
    Ty.accepts (some target) value = true ↔ target.Takes value := by
  simp only [Ty.accepts, Kind.Takes, Bool.or_eq_true, Bool.and_eq_true, decide_eq_true_eq,
    Option.some.injEq, eq_comm (a := value)]

namespace Tree

/-- A node that keeps its rule passes it. -/
theorem KeepsRule.rootCheck {t : Tree} (h : t.KeepsRule) : t.rootCheck = .ok () := by
  cases t with
  | constant | reference | block => rfl
  | negation a | choice c a | choiceElse c a b | loop c a => exact if_pos h
  | binary op a b =>
    obtain ⟨ha, hb, hsuits⟩ := h
    rw [Tree.rootCheck, Operator.check, if_neg (not_or.mpr ⟨ha, hb⟩),
      if_pos (Operator.takes_iff.mpr hsuits)]
  | assign target a => exact if_pos (Ty.accepts_iff.mpr h)
  | write a newline => exact if_neg h

/-- A node that breaks its rule fails it, with the error that is due. -/
theorem Breaks.rootCheck {t : Tree} {e : Error} (h : t.Breaks e) : t.rootCheck = .error e := by
  cases h with
  | negation h | choice h | choiceElse h | loop h => exact if_neg h
  | valueless h => exact if_pos h
  | operands ha hb h =>
    rw [Tree.rootCheck, Operator.check, if_neg (not_or.mpr ⟨ha, hb⟩),
      if_neg (mt Operator.takes_iff.mp h)]
  | assign h => exact if_neg (mt Ty.accepts_iff.mp h)
  | write h => exact if_pos h

/-- A node that does not keep its rule breaks it. -/
theorem exists_breaks {t : Tree} (h : ¬ t.KeepsRule) : ∃ e, t.Breaks e := by
  cases t with
  | constant | reference | block => exact absurd trivial h
  | negation a => exact ⟨_, .negation h⟩
  | binary op a b =>
    by_cases hnone : a.staticType = none ∨ b.staticType = none
    · exact ⟨_, .valueless hnone⟩
    · obtain ⟨ha, hb⟩ := not_or.mp hnone
      exact ⟨_, .operands ha hb fun hsuits => h ⟨ha, hb, hsuits⟩⟩
  | assign target a => exact ⟨_, .assign h⟩
  | write a newline => exact ⟨_, .write (not_not.mp h)⟩
  | choice c a => exact ⟨_, .choice h⟩
  | choiceElse c a b => exact ⟨_, .choiceElse h⟩
  | loop c a => exact ⟨_, .loop h⟩

theorem rootCheck_eq_ok_iff {t : Tree} : t.rootCheck = .ok () ↔ t.KeepsRule := by
  refine ⟨fun h => ?_, KeepsRule.rootCheck⟩
  by_contra hbroken
  obtain ⟨e, he⟩ := exists_breaks hbroken
  exact nomatch h.symm.trans he.rootCheck

theorem rootCheck_eq_error_iff {t : Tree} {e : Error} : t.rootCheck = .error e ↔ t.Breaks e := by
  refine ⟨fun h => ?_, Breaks.rootCheck⟩
  have hbroken : ¬ t.KeepsRule := fun hk => nomatch h.symm.trans hk.rootCheck
  obtain ⟨e', he'⟩ := exists_breaks hbroken
  cases h.symm.trans he'.rootCheck
  exact he'

/-- **The checker decides the rules and reports the first violation.**  A tree is accepted when all
its nodes keep their rules.  The order of judgement goes through every node once, and a tree is
refused with an error when the first node in it that breaks its rule breaks it with this error. -/
theorem check_decides_rules (t : Tree) :
    (t.check = .ok () ↔ ∀ u ∈ t.subtrees, u.KeepsRule) ∧
      t.judged.Perm t.subtrees ∧
      ∀ e, t.check = .error e ↔ ∃ before u after, t.judged = before ++ u :: after ∧
        (∀ w ∈ before, w.KeepsRule) ∧ u.Breaks e := by
  refine ⟨?_, t.judged_perm, fun e => ?_⟩
  · simp only [check_eq_forM, forM_eq_ok_iff, rootCheck_eq_ok_iff, t.judged_perm.mem_iff]
  · simp only [check_eq_forM, forM_eq_error_iff, rootCheck_eq_ok_iff, rootCheck_eq_error_iff]

/-- A condition is settled before what it guards, however bad that is. -/
example : (Tree.loop (.negation (.constant (.integer 1))) (.write (.block []) true)).check =
    .error (.invalidOperands "not" "NOT requires a boolean operand") := rfl

end Tree
end ProcTree
