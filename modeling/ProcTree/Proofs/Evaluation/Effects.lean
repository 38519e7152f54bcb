/-
# The effects of evaluation

Two statements bound what a run does to its machine, whatever the tree and however the run ends.

* `Tree.changes_targets_only`: a run changes the values of variables that the tree assigns to, and
  nothing else in the table.  This is the frame of a whole run, loops and aborted blocks included.
* `Tree.values_without_effects`: a run that gives a value has done nothing at all.  A statement may
  stand as an operand, and its effects happen; but then the operator around it misses its value.
  In an accepted expression no statement stands anywhere, so that failing does nothing either.
-/
import Mathlib.Data.List.Forall2
import ProcTree.Proofs.Evaluation.Expression

namespace ProcTree

/-! ## 1. Changes to some variables -/

/-- The second variable is the first one, with the same value unless its name is among these. -/
structure Variable.ChangesOnly (names : List String) (v v' : Variable) : Prop where
  handle : v'.handle = v.handle
  value : v.name ∉ names → v'.value = v.value

/-- The tables have the same variables in the same order, with the same names and kinds and the same
supply of temporaries.  Only variables with one of these names may have other values. -/
structure Table.ChangesOnly (names : List String) (t t' : Table) : Prop where
  entries : List.Forall₂ (Variable.ChangesOnly names) t.entries t'.entries
  tempStem : t'.tempStem = t.tempStem
  nextTemp : t'.nextTemp = t.nextTemp

theorem forall₂_trans {α : Type} {R : α → α → Prop} (hR : ∀ x y z, R x y → R y z → R x z)
    {xs ys zs : List α} (h : List.Forall₂ R xs ys) (h' : List.Forall₂ R ys zs) :
    List.Forall₂ R xs zs := by
  induction h generalizing zs with
  | nil => exact h'
  | cons hxy _ ih =>
    cases h' with
    | cons hyz hrest => exact .cons (hR _ _ _ hxy hyz) (ih hrest)

namespace Variable.ChangesOnly

variable {names : List String}

theorem refl (v : Variable) : v.ChangesOnly names v := ⟨rfl, fun _ => rfl⟩

theorem trans {v₁ v₂ v₃ : Variable} (h : v₁.ChangesOnly names v₂) (h' : v₂.ChangesOnly names v₃) :
    v₁.ChangesOnly names v₃ := by
  refine ⟨h'.handle.trans h.handle, fun hn => ?_⟩
  have hname : v₂.name = v₁.name := congrArg Handle.name h.handle
  exact (h'.value (hname ▸ hn)).trans (h.value hn)

end Variable.ChangesOnly

namespace Table.ChangesOnly

variable {names : List String}

theorem refl (t : Table) : t.ChangesOnly names t :=
  ⟨List.forall₂_same.mpr fun v _ => .refl v, rfl, rfl⟩

theorem trans {t₁ t₂ t₃ : Table} (h : t₁.ChangesOnly names t₂) (h' : t₂.ChangesOnly names t₃) :
    t₁.ChangesOnly names t₃ :=
  ⟨forall₂_trans (fun _ _ _ => .trans) h.entries h'.entries, h'.tempStem.trans h.tempStem,
    h'.nextTemp.trans h.nextTemp⟩

/-- A store under one of the names. -/
theorem store (t : Table) {name : String} (hn : name ∈ names) (value : Value) :
    t.ChangesOnly names (t.store name value) := by
  refine ⟨List.forall₂_map_right_iff.mpr (List.forall₂_same.mpr fun v _ => ?_), rfl, rfl⟩
  by_cases hv : v.name = name
  · rw [if_pos hv]
    exact ⟨rfl, fun h => absurd (hv ▸ hn) h⟩
  · rw [if_neg hv]
    exact .refl v

end Table.ChangesOnly

/-- The names of the variables that the tree assigns to. -/
def Tree.targetNames (t : Tree) : List String := t.targets.map Handle.name

/-- The table of the second machine changes only there. -/
def Machine.ChangesOnly (names : List String) (m m' : Machine) : Prop :=
  m.table.ChangesOnly names m'.table

theorem Machine.ChangesOnly.composes (names : List String) :
    Composes (Machine.ChangesOnly names) := ⟨fun m => .refl m.table, .trans⟩

/-- A store to a target changes that variable; a refused one changes nothing. -/
theorem Tree.store_changesOnly {t : Tree} {h : Handle} (hh : h ∈ t.targets) (v : Value) :
    Keeps (Machine.ChangesOnly t.targetNames) (Run.store h v) := by
  intro m
  have hname : h.name ∈ t.targetNames := List.mem_map_of_mem hh
  rw [leaves, Run.store_apply]
  cases ha : m.table.assign h v with
  | error e => exact .refl m.table
  | ok table =>
    obtain ⟨w, -, -, rfl⟩ := Table.set_eq_ok_iff.mp ha
    exact .store m.table hname v

/-- **Evaluation changes assigned variables only**, and so does interpretation.  After any run of
any tree, ended or stopped at any point, the table has the same variables in the same order with the
same names and kinds and the same supply of temporaries, and every variable that no assignment of
the tree names has the value it had before. -/
theorem Tree.changes_targets_only (t : Tree) (rounds : Nat) (m : Machine) :
    m.table.ChangesOnly t.targetNames (leaves (t.compute rounds) m).table ∧
      m.table.ChangesOnly t.targetNames (leaves (t.interpret rounds) m).table := by
  have hR := Machine.ChangesOnly.composes t.targetNames
  have hput : ∀ s, Keeps (Machine.ChangesOnly t.targetNames) (Run.put s) := by
    intro s m
    rw [leaves, Run.put_apply]
    cases (m.output.write s).1 <;> exact .refl m.table
  have hcompute := t.compute_keeps hR rounds (fun h hh v => store_changesOnly hh v) hput
  have hinterpret := t.interpret_composed (Keeps.composed hR) rounds hcompute (Keeps.close hR)
  exact ⟨hcompute m, hinterpret m⟩

/-! ## 2. Values without effects -/

/-- **A run that gives a value has done nothing.**  Checked or not, a tree whose evaluation gives a
value leaves table and output as they were.  A tree that the checker accepts as an expression leaves
them alone whatever comes of its evaluation. -/
theorem Tree.values_without_effects (t : Tree) (rounds : Nat) (m : Machine) :
    (∀ v m', t.compute rounds m = .ok (some v) m' → m' = m) ∧
      (t.check = .ok () → t.staticType ≠ none → leaves (t.compute rounds) m = m) := by
  refine ⟨fun v m' h => (compute_eq_value_iff.mp h).2, fun hc ht => ?_⟩
  rw [leaves, t.compute_expression rounds m hc ht]
  cases t.value m.table <;> rfl

/-- A quotient that the checker accepts: with three for `x` it has a value, and with zero it fails;
the machine stays as it is both times. -/
theorem Tree.values_without_effects_quotient :
    let x : Handle := ⟨"x", .integer⟩
    let t : Tree := .binary (.comparison .less) (.constant (.integer 1))
      (.binary (.wholeDivision .quotient) (.constant (.integer 7)) (.reference x))
    let m (i : Int64) : Machine :=
      ⟨⟨[⟨"x", .integer, .integer i⟩], "_tempVar", 0⟩, ⟨[104, 105], some 2, none⟩⟩
    t.compute 0 (m 3) = .ok (some (.boolean true)) (m 3) ∧ t.check = .ok () ∧
      t.staticType ≠ none ∧ t.compute 0 (m 0) = .error (.failed .divisionByZero) (m 0) := by
  intro x t m
  have hc : t.check = .ok () := rfl
  have ht : t.staticType ≠ none := by simp [t, staticType, Operator.resultTy]
  obtain ⟨m₃, h₃⟩ : ∃ m', t.compute 0 (m 3) = .ok (some (.boolean true)) m' := ⟨_, rfl⟩
  obtain ⟨m₀, h₀⟩ : ∃ m', t.compute 0 (m 0) = .error (.failed .divisionByZero) m' := ⟨_, rfl⟩
  obtain rfl : m₃ = m 3 := (values_without_effects t 0 (m 3)).1 _ _ h₃
  obtain rfl : m₀ = m 0 :=
    (leaves_of_error h₀).symm.trans ((values_without_effects t 0 (m 0)).2 hc ht)
  exact ⟨h₃, hc, ht, h₀⟩

/-- Without the checker a failing operator may have had an effect: the operand is written before its
value is missed. -/
example : (leaves ((Tree.negation (.write (.constant (.boolean true)) false)).compute 0)
    ⟨.empty "_tempVar", .unbounded⟩).output.text = "true" := by decide +kernel

end ProcTree
