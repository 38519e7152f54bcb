/-
# What a failure leaves

A pass that fails stops in the middle of its work, and nothing is taken back.  This file says that
nothing has to be: wherever lowering stops, what was there before is there still, and all that has
come to it is temporaries and code at the end.

* `Tree.lower_gains`: a builder gains temporaries, and each of them holds a constant of the tree or
  the zero of its kind (`Tree.Fills`).
* `Tree.compile_gains`: so does a table, whether a compilation fails in the check of the tree, in
  lowering or in the check of labels, or succeeds.
* `Tree.compile_of_rejected`, `Tree.interpret_of_rejected`: a tree that is rejected changes nothing.
-/
import ProcTree.Proofs.Lowering.Tracking

namespace ProcTree
namespace Tree

variable {layout : ChoiceLayout} {options : Options} {table table' : Table} {p : Program}
  {e : Error}

/-! ## 1. Lowering -/

/-- The temporary holds what lowering the tree gives to one: a constant of the tree, or the zero of
its kind. -/
def Fills (t : Tree) (v : Variable) : Prop := v.value = .zero v.kind ∨ v.value ∈ t.constants

/-- **Lowering adds to a builder**, however it ends: temporaries behind the variables, and
instructions behind the code. -/
theorem lower_gains (layout : ChoiceLayout) (t : Tree) (b : Builder) :
    ∃ new, b.table.Gains new (leaves (t.lower layout) b).table ∧
      (∀ v ∈ new, (t.lowered layout).Fills v) ∧
      b.nextLabel ≤ (leaves (t.lower layout) b).nextLabel ∧
      b.code <+: (leaves (t.lower layout) b).code := by
  obtain ⟨r, hr, -⟩ := t.lower_describe layout b
  obtain ⟨new, hgains, hperm⟩ := hr.table
  refine ⟨new, hgains, fun v hv => ?_, by rw [hr.nextLabel]; omega, ⟨r.code, hr.code.symm⟩⟩
  rcases List.mem_append.mp (hperm.mem_iff.mp hv) with hc | hz
  · exact .inr (hr.literals v hc)
  · exact .inl (hr.zeros v hz)

/-! ## 2. Passes -/

/-- **A compilation adds temporaries to a table**, however it ends. -/
theorem compile_gains (t : Tree) (options : Options) (table : Table) :
    ∃ new, table.Gains new (leaves (t.compile options) table) ∧
      ∀ v ∈ new, (t.lowered options.layout).Fills v := by
  rcases leaves_compile t options table with h | h
  · rw [h]
    exact ⟨[], .refl table, fun v hv => absurd hv List.not_mem_nil⟩
  · obtain ⟨new, hgains, hfills, -⟩ := t.lower_gains options.layout (.ofTable table)
    rw [h]
    exact ⟨new, hgains, hfills⟩

theorem interpret_of_rejected {t : Tree} (h : t.check = .error e) (rounds : Nat) (m : Machine) :
    t.interpret rounds m = .error (.failed e) m := by
  have hcheck : Run.ofExcept t.check m = .error (.failed e) m := by
    rw [h]
    rfl
  exact bind_of_error hcheck

/-- A compiled program declares what the table registers. -/
theorem declarations_of_compile {t : Tree} (h : t.compile options table = .ok p table') :
    p.declarations = table'.entries := by
  obtain ⟨-, r, b, -, -, rfl, rfl⟩ := compile_eq_ok_iff.mp h
  rfl

/-- **The passes leave what was there intact.**  A compilation, however it ends, leaves the
variables of the table as and where they are, adds temporaries with constants of the tree or zeros
behind them, and does not turn the supply of temporaries back.  A tree that the checker rejects
changes neither the table of a compilation nor the table and the output of a run.  A program
declares the variables that are registered when its compilation is done.  And lowering by itself,
from any builder and however it ends, adds to what there is. -/
theorem passes_keep_state (t : Tree) :
    (∀ (options : Options) (table : Table), ∃ new,
      table.Gains new (leaves (t.compile options) table) ∧
        ∀ v ∈ new, (t.lowered options.layout).Fills v) ∧
    (∀ e, t.check = .error e →
      (∀ options table, t.compile options table = .error e table) ∧
        ∀ rounds m, t.interpret rounds m = .error (.failed e) m) ∧
    (∀ options table p table', t.compile options table = .ok p table' →
      p.declarations = table'.entries) ∧
    ∀ layout (b : Builder), ∃ new, b.table.Gains new (leaves (t.lower layout) b).table ∧
      (∀ v ∈ new, (t.lowered layout).Fills v) ∧
      b.nextLabel ≤ (leaves (t.lower layout) b).nextLabel ∧
      b.code <+: (leaves (t.lower layout) b).code :=
  ⟨t.compile_gains,
    fun _ h => ⟨compile_of_rejected h, interpret_of_rejected h⟩,
    fun _ _ _ _ => declarations_of_compile, fun layout => t.lower_gains layout⟩

/-- The theorem at work on three trees.  The first fails at its second statement, and the temporary
of its first one stays.  The second is rejected.  The third compiles. -/
theorem passes_keep_state_midway :
    let x : Handle := ⟨"x", .integer⟩
    let five : Tree := .assign x (.constant (.integer 5))
    let foreign : Tree := .write (.reference ⟨"y", .integer⟩) true
    let table : Table := ⟨[⟨"x", .integer, .integer 3⟩], "_tempVar", 0⟩
    let half : Table :=
      ⟨[⟨"x", .integer, .integer 3⟩, ⟨"_tempVar0", .integer, .integer 5⟩], "_tempVar", 1⟩
    let rejected : Tree := .assign x (.constant (.boolean true))
    (leaves ((Tree.block [five, foreign]).compile .standard) table = half ∧
      ∃ new, table.Gains new half ∧ ∀ v ∈ new, (Tree.block [five, foreign]).Fills v) ∧
    (∃ e, rejected.check = .error e ∧ rejected.compile .standard table = .error e table) ∧
    ∃ p, five.compile .standard table = .ok p half ∧ p.declarations = half.entries := by
  intro x five foreign table half rejected
  have hhalf : leaves ((Tree.block [five, foreign]).compile .standard) table = half := by
    decide +kernel
  obtain ⟨e, he⟩ : ∃ e, rejected.check = .error e := ⟨_, rfl⟩
  obtain ⟨p, hp⟩ : ∃ p, five.compile .standard table =
      .ok p (leaves (five.compile .standard) table) := eq_ok_of_isSome (by decide +kernel)
  rw [show leaves (five.compile .standard) table = half by decide +kernel] at hp
  refine ⟨⟨hhalf, ?_⟩, ⟨e, he, ?_⟩, p, hp, ?_⟩
  · have h := (passes_keep_state (.block [five, foreign])).1 .standard table
    rwa [hhalf] at h
  · exact ((passes_keep_state rejected).2.1 e he).1 .standard table
  · exact (passes_keep_state five).2.2.1 .standard table p half hp

end Tree
end ProcTree
