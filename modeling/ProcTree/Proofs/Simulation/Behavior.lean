/-
# Lowering preserves behavior

A compiled program behaves as the evaluation of its tree (`Tree.compile_preserves_behavior`): it
ends with the same values and the same output, fails with the same error after the same output, or
runs for ever.

One direction is the simulation of `Statements.lean`, from the start of the program to its end.
The other direction follows, because evaluation always has a behavior (`Tree.exists_behaves`) and a
program has at most one.
-/
import ProcTree.Proofs.Lowering.Pairing
import ProcTree.Proofs.Simulation.Statements

namespace ProcTree

/-! ## 1. Behavior of an evaluation -/

/-- The values of the variables of these names. -/
def Table.valuesOf (t : Table) (names : List String) : List (Option Value) :=
  names.map fun name => (t.find? name).map Variable.value

/-- A machine that matches an evaluation has its values. -/
theorem Matches.valuesOf {base : Table} {m : Machine} {s : Snapshot} (h : Matches base m s) :
    base.names.map s.memory = m.table.valuesOf base.names :=
  List.map_congr_left fun name hname => h.values name hname

namespace Tree

/-- Evaluating the tree on a machine looks like this, where the values are those of the listed
variables. -/
def Behaves (t : Tree) (names : List String) (m : Machine) : Behavior → Prop
  | .finishes values output => ∃ rounds r m', t.compute rounds m = .ok r m' ∧
      m'.table.valuesOf names = values ∧ m'.output = output
  | .fails e values output => ∃ rounds m', t.compute rounds m = .error (.failed e) m' ∧
      m'.table.valuesOf names = values ∧ m'.output = output
  | .diverges => ∀ rounds, ∃ m', t.compute rounds m = .error .outOfRounds m'

/-- Every evaluation looks like something: it ends with some number of rounds or with none. -/
theorem exists_behaves (t : Tree) (names : List String) (m : Machine) :
    ∃ β, t.Behaves names m β := by
  by_cases h : ∃ rounds, ∀ m', t.compute rounds m ≠ .error .outOfRounds m'
  · obtain ⟨rounds, hr⟩ := h
    cases hc : t.compute rounds m with
    | ok r m' => exact ⟨.finishes _ _, rounds, r, m', hc, rfl, rfl⟩
    | error stopped m' =>
      cases stopped with
      | failed e => exact ⟨.fails e _ _, rounds, m', hc, rfl, rfl⟩
      | outOfRounds => exact absurd hc (hr m')
  · refine ⟨.diverges, fun rounds => ?_⟩
    rcases Classical.em (∃ m', t.compute rounds m = .error .outOfRounds m') with hm | hm
    · exact hm
    · exact absurd ⟨rounds, fun m' hc => hm ⟨m', hc⟩⟩ h

/-! ## 2. Compiled programs -/

open Builder

/-- What a successful structured compilation consists of. -/
theorem compile_ok {t : Tree} {options : Options} {table table' : Table} {p : Program}
    (hlayout : options.layout = .structured) (h : t.compile options table = .ok p table') :
    t.check = .ok () ∧ ∃ r b, t.lower .structured (.ofTable table) = .ok r b ∧ p = b.program ∧
      (options.pairLabels = true → p.check = .ok ()) := by
  obtain ⟨hc, r, b, hl, hp, rfl, -⟩ := compile_eq_ok_iff.mp h
  exact ⟨hc, r, b, hlayout ▸ hl, rfl, hp⟩

/-- Labels of compiled code are distinct: they were checked, or they are few enough. -/
theorem labels_nodup_of_compile {t : Tree} {options : Options} {table : Table} {r : Option Handle}
    {b : Builder} (hl : t.lower .structured (.ofTable table) = .ok r b)
    (hcheck : options.pairLabels = true → b.program.check = .ok ())
    (hfit : options.pairLabels = true ∨ t.labelCount ≤ UInt64.size) :
    (b.code.filterMap Instruction.label).Nodup := by
  have hp : b.program.check = .ok () := by
    rcases hfit with h | h
    · exact hcheck h
    · exact (lower_closes t hl).check h
  exact (checkPairing_eq_ok_iff.mp hp).1

/-- At the start the machine has the declared values, which are those of the table. -/
theorem matches_start {table : Table} {b : Builder} (hw : table.WellFormed)
    (hg : table.entries <+: b.table.entries) (output : Output) :
    Matches table ⟨table, output⟩ (b.program.start output) := by
  refine ⟨hw, .refl table, ?_, rfl⟩
  intro name hname
  obtain ⟨v, hv, rfl⟩ := List.mem_map.mp hname
  have hfind := Table.find?_of_mem hw.names_nodup hv
  have hfind' : b.table.find? v.name = some v := Table.find?_of_prefix hg hfind
  have hmem : (b.program.start output).memory v.name = (b.table.find? v.name).map Variable.value :=
    rfl
  rw [hmem, hfind, hfind']

/-- **A compiled program follows the evaluation of its tree**, from its start to its end. -/
theorem compile_simulates {t : Tree} {options : Options} {table table' : Table} {p : Program}
    (hw : table.WellFormed) (hr : t.RegisteredIn table) (hlayout : options.layout = .structured)
    (hfit : options.pairLabels = true ∨ t.labelCount ≤ UInt64.size)
    (h : t.compile options table = .ok p table') (output : Output) (rounds : Nat) :
    Simulates table p.code rounds (p.start output) p.code.length
      (t.compute rounds ⟨table, output⟩) := by
  obtain ⟨hc, r, b, hl, rfl, hcheck⟩ := compile_ok hlayout h
  have hlabels := labels_nodup_of_compile hl hcheck hfit
  have hg : Grows (· ∈ table.names) (.ofTable table) b :=
    lower_grows t (fun g hg => (hr g (targets_subset_handles t hg)).mem_names) hl
  have hfits : (b.program.start output).Fits b.table.entries b.code :=
    .start (hg.wellFormed hw).names_nodup b.code output
  exact lower_simulates hlabels rounds t hl (.ofTable table) (.refl b) hc hr
    (matches_start hw hg.entries output) hfits rfl

/-- What evaluation looks like, the compiled program looks like. -/
theorem behaves_of_compile {t : Tree} {options : Options} {table table' : Table} {p : Program}
    (hw : table.WellFormed) (hr : t.RegisteredIn table) (hlayout : options.layout = .structured)
    (hfit : options.pairLabels = true ∨ t.labelCount ≤ UInt64.size)
    (h : t.compile options table = .ok p table') {output : Output} {β : Behavior}
    (hβ : t.Behaves table.names ⟨table, output⟩ β) : p.Behaves table.names output β := by
  have follows := compile_simulates hw hr hlayout hfit h output
  cases β with
  | finishes values out =>
    obtain ⟨rounds, r, m', hrun, hv, ho⟩ := hβ
    have hsim := follows rounds
    rw [hrun] at hsim
    obtain ⟨n, s, hreach, hn, hm⟩ := hsim
    refine ⟨n, s, hreach, ?_, hm.valuesOf.trans hv, hm.output.trans ho⟩
    rw [step, hn, List.getElem?_eq_none (Nat.le_refl _)]
  | fails e values out =>
    obtain ⟨rounds, m', hrun, hv, ho⟩ := hβ
    have hsim := follows rounds
    rw [hrun] at hsim
    obtain ⟨n, s, s', hreach, hs, hm⟩ := hsim
    exact ⟨n, s, s', hreach, hs, hm.valuesOf.trans hv, hm.output.trans ho⟩
  | diverges =>
    intro n
    obtain ⟨m', hrun⟩ := hβ n
    have hsim := follows n
    rw [hrun] at hsim
    obtain ⟨k, s, hk, hreach, -⟩ := hsim
    exact hreach.exists_of_le hk

/-- **Lowering preserves meaning.**  Take a table, a tree whose handles the table registers with
their kinds, and the program of a structured compilation whose labels were checked or are of
sixty-four bits.  Running the program looks exactly as evaluating the tree: with the same output and
the same values of the table's variables it ends, or fails with the same error, or it goes on for
ever; and it does one of the three.  Along the way, too, wherever evaluation is cut off for lack of
rounds the machine shows the same values and the same output, after at least as many steps. -/
theorem compile_preserves_behavior (t : Tree) (options : Options) (table table' : Table)
    (p : Program) (output : Output) (hw : table.WellFormed) (hr : t.RegisteredIn table)
    (hlayout : options.layout = .structured)
    (hfit : options.pairLabels = true ∨ t.labelCount ≤ UInt64.size)
    (h : t.compile options table = .ok p table') :
    (∀ β, p.Behaves table.names output β ↔ t.Behaves table.names ⟨table, output⟩ β) ∧
      (∃ β, p.Behaves table.names output β ∧
        ∀ β', p.Behaves table.names output β' → β' = β) ∧
      ∀ rounds m', t.compute rounds ⟨table, output⟩ = .error .outOfRounds m' →
        ∃ n s, rounds ≤ n ∧ Reaches p.code n (p.start output) s ∧
          table.names.map s.memory = m'.table.valuesOf table.names ∧ s.output = m'.output := by
  obtain ⟨β₀, hβ₀⟩ := t.exists_behaves table.names ⟨table, output⟩
  have hp := behaves_of_compile hw hr hlayout hfit h hβ₀
  refine ⟨fun β => ⟨fun hβ => ?_, behaves_of_compile hw hr hlayout hfit h⟩,
    ⟨β₀, hp, fun β' hβ' => hβ'.unique hp⟩, ?_⟩
  · rw [hβ.unique hp]
    exact hβ₀
  · intro rounds m' hrun
    have hsim := compile_simulates hw hr hlayout hfit h output rounds
    rw [hrun] at hsim
    obtain ⟨n, s, hn, hreach, hm⟩ := hsim
    exact ⟨n, s, hn, hreach, hm.valuesOf, hm.output⟩

/-- The theorem at work on a loop that adds `x` to a real `y` and counts `x` down to zero, after
which a division by `x` fails. -/
theorem compile_preserves_behavior_countdown :
    let x : Handle := ⟨"x", .integer⟩
    let y : Handle := ⟨"y", .real⟩
    let t : Tree := .block [
      .loop (.binary (.comparison .greater) (.reference x) (.constant (.integer 0)))
        (.block [.assign y (.binary (.arithmetic .add) (.reference y) (.reference x)),
          .write (.reference x) true,
          .assign x (.binary (.arithmetic .subtract) (.reference x) (.constant (.integer 1)))]),
      .write (.binary (.wholeDivision .quotient) (.constant (.integer 1)) (.reference x)) true]
    let table : Table := ⟨[⟨"x", .integer, .integer 2⟩, ⟨"y", .real, .real 0⟩], "_tempVar", 0⟩
    ∃ p table', t.compile .standard table = .ok p table' ∧
      p.Behaves table.names .unbounded (.fails .divisionByZero
        [some (.integer 0), some (.real 3)] ⟨[50, 10, 49, 10], none, none⟩) := by
  intro x y t table
  have hw : table.WellFormed := ⟨by decide, by decide⟩
  have hr : t.RegisteredIn table := by
    intro h hh
    have hxy : ∀ h ∈ t.handles, h = x ∨ h = y := by decide
    rcases hxy h hh with rfl | rfl <;> rfl
  have hcompile : (match t.compile .standard table with
      | .ok _ _ => true
      | .error _ _ => false) = true := by decide +kernel
  obtain ⟨p, table', hp⟩ : ∃ p table', t.compile .standard table = .ok p table' := by
    cases h : t.compile .standard table with
    | ok p table' => exact ⟨p, table', rfl⟩
    | error e table' => simp [h] at hcompile
  let last : Machine := ⟨⟨[⟨"x", .integer, .integer 0⟩, ⟨"y", .real, .real 3⟩], "_tempVar", 0⟩,
    ⟨[50, 10, 49, 10], none, none⟩⟩
  have hrun : (match t.compute 3 ⟨table, .unbounded⟩ with
      | .error (.failed e) m' => e = .divisionByZero && m' = last
      | _ => false) = true := by decide +kernel
  have heval : t.Behaves table.names ⟨table, .unbounded⟩ (.fails .divisionByZero
      [some (.integer 0), some (.real 3)] ⟨[50, 10, 49, 10], none, none⟩) := by
    refine ⟨3, last, ?_, by decide +kernel, rfl⟩
    cases h : t.compute 3 ⟨table, .unbounded⟩ with
    | ok r m' => simp [h] at hrun
    | error stopped m' => cases stopped <;> simp_all
  have hsame := (compile_preserves_behavior t .standard table table' p .unbounded hw hr rfl
    (.inl rfl) hp).1
  exact ⟨p, table', hp, (hsame _).mpr heval⟩

end Tree
end ProcTree
