/-
# What evaluation leaves alone

A tree changes a machine only by the stores and the writes at its nodes, however long it runs and
however it ends.  `Tree.compute_keeps` says so once: a relation between machines that composes,
and that holds of every store to one of the tree's targets and of every write, holds between the
machine before and the machine after.

`Machine.Follows` is the relation that typing needs: the table keeps its shape, and stays well
formed.
-/
import ProcTree.Proofs.Evaluation.Composition

namespace ProcTree

/-! ## 1. Single steps -/

namespace Run

variable {α : Type}

theorem ofExcept_eq_ok_iff {x : Except Error α} {m m' : Machine} {a : α} :
    Run.ofExcept x m = .ok a m' ↔ x = .ok a ∧ m' = m := by
  cases x <;> simp [Run.ofExcept, Run.fail, eq_comm]

theorem ofExcept_eq_error_iff {x : Except Error α} {m m' : Machine} {s : Stop} :
    Run.ofExcept x m = .error s m' ↔ ∃ e, x = .error e ∧ s = .failed e ∧ m' = m := by
  cases x <;> simp [Run.ofExcept, Run.fail, eq_comm]

theorem needed_eq_ok_iff {construct : String} {r : Option Value} {m m' : Machine} {v : Value} :
    Run.needed construct r m = .ok v m' ↔ r = some v ∧ m' = m := by
  cases r <;> simp [Run.needed, Run.fail, eq_comm]

theorem needed_eq_error_iff {construct : String} {r : Option Value} {m m' : Machine} {s : Stop} :
    Run.needed construct r m = .error s m' ↔
      r = none ∧ s = .failed (.missingValue construct) ∧ m' = m := by
  cases r <;> simp [Run.needed, Run.fail, eq_comm]

end Run

/-! ## 2. Whole trees -/

namespace Keeps

variable {R : Machine → Machine → Prop} {α : Type}

theorem composed (hR : Composes R) : Run.Composed fun x (_ : Run _) => Keeps R x :=
  ⟨fun a => Keeps.pure hR a, fun s => Keeps.throw hR s, fun hx hf => Keeps.bind hR hx hf⟩

/-- Closing the output changes nothing. -/
theorem close (hR : Composes R) :
    Keeps R (get >>= fun m : Machine => Run.ofExcept m.output.close) :=
  fun m => (Keeps.composed hR).ofExcept m.output.close m

end Keeps

/-- **Evaluation keeps what stores and writes keep.**  Reads change nothing. -/
theorem Tree.compute_keeps {R : Machine → Machine → Prop} (hR : Composes R) (rounds : Nat)
    (t : Tree) (hstore : ∀ h ∈ t.targets, ∀ v, Keeps R (Run.store h v))
    (hput : ∀ s, Keeps R (Run.put s)) : Keeps R (t.compute rounds) := by
  have hread : ∀ h, Keeps R (Run.read h) :=
    fun h m => (Keeps.composed hR).ofExcept (m.table.valueOf h) m
  exact t.compute_composed (Keeps.composed hR) rounds (fun h _ => hread h) hstore hput

/-! ## 3. Shapes along a run -/

/-- The second machine has a table of the first one's shape, well formed if the first one is. -/
structure Machine.Follows (m m' : Machine) : Prop where
  shape : m.table.SameShape m'.table
  wellFormed : m.table.WellFormed → m'.table.WellFormed

namespace Machine.Follows

theorem refl (m : Machine) : m.Follows m := ⟨.refl m.table, id⟩

theorem trans {m₁ m₂ m₃ : Machine} (h : m₁.Follows m₂) (h' : m₂.Follows m₃) : m₁.Follows m₃ :=
  ⟨h.shape.trans h'.shape, fun hw => h'.wellFormed (h.wellFormed hw)⟩

theorem composes : Composes Machine.Follows := ⟨refl, trans⟩

theorem registeredIn {m m' : Machine} (h : m.Follows m') {t : Tree}
    (hr : t.RegisteredIn m.table) : t.RegisteredIn m'.table := hr.of_sameShape h.shape

end Machine.Follows

/-- **Evaluation keeps the shape of the table**, and its being well formed. -/
theorem Tree.compute_follows (rounds : Nat) (t : Tree) :
    Keeps Machine.Follows (t.compute rounds) := by
  refine t.compute_keeps Machine.Follows.composes rounds ?_ ?_
  · intro h _ v m
    rw [leaves, Run.store_apply]
    cases ha : m.table.assign h v with
    | ok table => exact ⟨Table.sameShape_of_assign ha, fun hw => hw.assign ha⟩
    | error e => exact Machine.Follows.refl m
  · intro s m
    rw [leaves, Run.put_apply]
    cases (m.output.write s).1 <;> exact ⟨.refl m.table, id⟩

/-- So does a whole interpretation: the check and the close of the output leave the table alone. -/
theorem Tree.interpret_follows (rounds : Nat) (t : Tree) :
    Keeps Machine.Follows (t.interpret rounds) :=
  t.interpret_composed (Keeps.composed Machine.Follows.composes) rounds (t.compute_follows rounds)
    (Keeps.close Machine.Follows.composes)

end ProcTree
