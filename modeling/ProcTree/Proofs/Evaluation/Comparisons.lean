/-
# Comparisons read one total order

Integers are compared as numbers and texts as in a dictionary.  In either case all six relations are
read off one comparison (`Comparison.holds_iff`), so that they agree with each other as the
relations of a total order do (`Comparison.OrdersBy`).  Booleans can only be told apart.

What comes of comparing two values comes of comparing any operands that have these values, on every
table (`Comparison.Answers`, `Comparison.Refuses`).
-/
import ProcTree.Proofs.Encoding
import ProcTree.Proofs.Evaluation.Order
import ProcTree.Proofs.Operator

namespace ProcTree
namespace Comparison

/-! ## 1. Comparisons of values -/

/-- Comparing operands with these values gives this truth. -/
def Answers (c : Comparison) (x y : Value) (truth : Bool) : Prop :=
  ∀ l r table, Tree.EvaluatesTo l table x → Tree.EvaluatesTo r table y →
    (Tree.binary (.comparison c) l r).EvaluatesTo table (.boolean truth)

/-- Comparing operands with these values fails with this error. -/
def Refuses (c : Comparison) (x y : Value) (e : Error) : Prop :=
  ∀ l r table, Tree.EvaluatesTo l table x → Tree.EvaluatesTo r table y →
    (Tree.binary (.comparison c) l r).FailsWith table e

/-- The answer does not depend on where the values come from: constants give them on any table. -/
theorem answers_iff {c : Comparison} {x y : Value} {truth : Bool} :
    c.Answers x y truth ↔ c.apply x y = .ok truth := by
  constructor
  · intro h
    have hconstants := Tree.evaluatesTo_iff.mp (h (.constant x) (.constant y) (.empty "")
      (Tree.evaluatesTo_of_value rfl) (Tree.evaluatesTo_of_value rfl))
    obtain ⟨_, ⟨⟩, _, ⟨⟩, happly⟩ := Tree.value_binary_iff.mp hconstants
    rw [Operator.apply] at happly
    cases hc : c.apply x y with
    | error e => simp [hc, Except.map] at happly
    | ok b => simpa [hc, Except.map] using happly
  · intro h l r table hl hr
    refine Tree.evaluatesTo_binary hl hr ?_
    rw [Operator.apply, h]
    rfl

theorem refuses_of_apply {c : Comparison} {x y : Value} {e : Error} (h : c.apply x y = .error e) :
    c.Refuses x y e := by
  intro l r table hl hr
  refine Tree.failsWith_binary hl hr ?_
  rw [Operator.apply, h]
  rfl

/-! ## 2. Total orders -/

/-- The relation that a comparison stands for, in an order given by "less". -/
def Relates {α : Type} (c : Comparison) (lt : α → α → Prop) (x y : α) : Prop :=
  match c with
  | equal => x = y
  | notEqual => x ≠ y
  | less => lt x y
  | lessEqual => lt x y ∨ x = y
  | greater => lt y x
  | greaterEqual => lt y x ∨ x = y

/-- The comparisons of these values read the order given by "less", and this order is total. -/
structure OrdersBy {α : Type} (value : α → Value) (lt : α → α → Prop) : Prop where
  /-- Every comparison gives the truth of its relation. -/
  reads : ∀ c x y, ∃ truth, Answers c (value x) (value y) truth ∧ (truth = true ↔ c.Relates lt x y)
  /-- One of less, equal and greater holds, and the two others do not. -/
  trichotomy : ∀ x y,
    (Answers less (value x) (value y) true ∧ Answers equal (value x) (value y) false ∧
        Answers greater (value x) (value y) false) ∨
      (Answers less (value x) (value y) false ∧ Answers equal (value x) (value y) true ∧
        Answers greater (value x) (value y) false) ∨
      (Answers less (value x) (value y) false ∧ Answers equal (value x) (value y) false ∧
        Answers greater (value x) (value y) true)
  notEqual_iff : ∀ x y b,
    Answers notEqual (value x) (value y) b ↔ Answers equal (value x) (value y) !b
  lessEqual_iff : ∀ x y b,
    Answers lessEqual (value x) (value y) b ↔ Answers greater (value x) (value y) !b
  greaterEqual_iff : ∀ x y b,
    Answers greaterEqual (value x) (value y) b ↔ Answers less (value x) (value y) !b
  less_swap : ∀ x y b, Answers less (value x) (value y) b ↔ Answers greater (value y) (value x) b
  lessEqual_swap : ∀ x y b,
    Answers lessEqual (value x) (value y) b ↔ Answers greaterEqual (value y) (value x) b
  less_trans : ∀ x y z, Answers less (value x) (value y) true →
    Answers less (value y) (value z) true → Answers less (value x) (value z) true

/-- **All six relations are read off one comparison** of two elements. -/
theorem holds_iff {α : Type} [Ord α] [Std.TransOrd α] [Std.LawfulEqOrd α] {lt : α → α → Prop}
    (hlt : ∀ x y, compare x y = .lt ↔ lt x y) (c : Comparison) (x y : α) :
    c.holds (compare x y) = true ↔ c.Relates lt x y := by
  have heq : compare x y = .eq ↔ x = y := Std.compare_eq_iff_eq
  have hgt : compare x y = .gt ↔ lt y x := Std.OrientedCmp.gt_iff_lt.trans (hlt y x)
  specialize hlt x y
  cases h : compare x y <;> cases c <;> simp_all [holds, Relates]

/-- Values that are compared by a lawful comparison of what they hold are totally ordered by it. -/
theorem ordersBy_of_compare {α : Type} [Ord α] [Std.TransOrd α] [Std.LawfulEqOrd α]
    {value : α → Value} {lt : α → α → Prop} (hlt : ∀ x y, compare x y = .lt ↔ lt x y)
    (happly : ∀ (c : Comparison) x y, c.apply (value x) (value y) = .ok (c.holds (compare x y))) :
    OrdersBy value lt := by
  have hanswers (c : Comparison) (x y : α) (b : Bool) :
      c.Answers (value x) (value y) b ↔ c.holds (compare x y) = b := by
    rw [answers_iff, happly, Except.ok.injEq]
  have hswap (x y : α) : compare y x = (compare x y).swap := Std.OrientedOrd.eq_swap
  constructor <;> simp only [hanswers]
  · exact fun c x y => ⟨_, rfl, c.holds_iff hlt x y⟩
  · intro x y
    cases compare x y <;> simp [holds]
  · intro x y b
    cases compare x y <;> cases b <;> simp [holds]
  · intro x y b
    cases compare x y <;> cases b <;> simp [holds]
  · intro x y b
    cases compare x y <;> cases b <;> simp [holds]
  · intro x y b
    rw [hswap x y]
    cases compare x y <;> simp [holds]
  · intro x y b
    rw [hswap x y]
    cases compare x y <;> simp [holds]
  · intro x y z hxy hyz
    simp only [holds, decide_eq_true_eq] at hxy hyz ⊢
    exact Std.TransCmp.lt_trans hxy hyz

/-! ## 3. Integers, texts and booleans -/

theorem ordersBy_integers : OrdersBy Value.integer fun i j => i.toInt < j.toInt := by
  refine ordersBy_of_compare (fun i j => ?_) fun _ _ _ => rfl
  rw [Std.compare_eq_lt, Int64.lt_iff_toInt_lt]

theorem ordersBy_strings : OrdersBy Value.string Text.Before :=
  ordersBy_of_compare (fun _ _ => Text.compare_eq_lt_iff) fun _ _ _ => rfl

/-- **The six comparisons read one total order.**  Integers are ordered as numbers and texts as in a
dictionary by the scalar values of their characters, which is the order of their bytes; in either
order the comparisons agree with each other.  Two booleans are equal or not, and each of the four
relations that would order them fails. -/
theorem comparisons_read_one_order :
    OrdersBy Value.integer (fun i j => i.toInt < j.toInt) ∧ OrdersBy Value.string Text.Before ∧
      (∀ s t, Text.Before s t ↔ List.Lex (· < ·) (Output.encode s) (Output.encode t)) ∧
      ∀ a b, Answers equal (.boolean a) (.boolean b) (decide (a = b)) ∧
        Answers notEqual (.boolean a) (.boolean b) (decide (a ≠ b)) ∧
        ∀ c : Comparison, c.orders = true →
          c.Refuses (.boolean a) (.boolean b) (.unsupportedOperation c.symbol "Boolean") := by
  refine ⟨ordersBy_integers, ordersBy_strings, fun _ _ => Text.before_iff_bytes, fun a b => ?_⟩
  refine ⟨answers_iff.mpr rfl, answers_iff.mpr rfl, fun c hc => refuses_of_apply ?_⟩
  cases c with
  | equal | notEqual => exact absurd hc (by simp [orders])
  | _ => rfl

/-- The last letter of the alphabet comes before an accented one and before itself with anything
added; two booleans are in no order. -/
theorem comparisons_read_one_order_accent :
    Answers less (.string "z") (.string "é") true ∧
      Answers greaterEqual (.string "é") (.string "z") true ∧
      Answers less (.string "z") (.string "z\n") true ∧ less.orders = true ∧
      Refuses less (.boolean false) (.boolean true) (.unsupportedOperation "<" "Boolean") := by
  obtain ⟨-, hstrings, -, hbooleans⟩ := comparisons_read_one_order
  have answers {c : Comparison} {s t : String} (h : c.Relates Text.Before s t) :
      Answers c (.string s) (.string t) true := by
    obtain ⟨truth, hanswers, htruth⟩ := hstrings.reads c s t
    obtain rfl := htruth.mpr h
    exact hanswers
  have haccent : Text.Before "z" "é" := Text.compare_eq_lt_iff.mp (by decide +kernel)
  have hadded : Text.Before "z" "z\n" := Text.compare_eq_lt_iff.mp (by decide +kernel)
  exact ⟨answers haccent, answers (.inl haccent), answers hadded, rfl,
    (hbooleans false true).2.2 less rfl⟩

end Comparison
end ProcTree
