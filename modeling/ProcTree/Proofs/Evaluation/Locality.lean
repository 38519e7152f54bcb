/-
# Evaluation is local

A tree reads and writes the variables that its handles name, and no others.  So evaluation goes
alike on two tables that agree on these variables, however much they differ elsewhere: in other
variables, in the order of the variables, in the names and the number of the temporaries.

* `Machine.AgreesOn`: agreement of the tables on some names, and the same output.  Reads and stores
  by these names, and writes, respect it, and so evaluation does (`Tree.compute_respects`).
* `Table.entries_afterCompiling`: compilations only add variables, so that they are not noticed by a
  tree whose handles are registered (`Tree.evaluation_local`).
-/
import ProcTree.Proofs.Use

namespace ProcTree

/-! ## 1. Agreement on names -/

namespace Tree

/-- The names of the handles in a tree. -/
def names (t : Tree) : List String := t.handles.map Handle.name

theorem name_mem_names {t : Tree} {h : Handle} (hh : h ∈ t.handles) : h.name ∈ t.names :=
  List.mem_map_of_mem hh

end Tree

/-- The tables find the same under each of the names: nothing, or variables of one kind and with
one value. -/
def Table.AgreesOn (names : List String) (t t' : Table) : Prop :=
  ∀ name ∈ names, t.find? name = t'.find? name

/-- The tables agree on the names, and the same was written. -/
structure Machine.AgreesOn (names : List String) (m m' : Machine) : Prop where
  table : m.table.AgreesOn names m'.table
  output : m.output = m'.output

namespace Table.AgreesOn

variable {names : List String} {t t' : Table}

/-- A store under any name goes to both tables alike. -/
theorem store (h : t.AgreesOn names t') (n : String) (v : Value) :
    (t.store n v).AgreesOn names (t'.store n v) := by
  intro name hname
  rw [find?_store, find?_store, h name hname]

end Table.AgreesOn

namespace Machine.AgreesOn

variable {names : List String}

theorem respects_read {g : Handle} (hg : g.name ∈ names) :
    Respects (Machine.AgreesOn names) (Run.read g) (Run.read g) :=
  .read fun h => Table.valueOf_of_find? (h.table g.name hg)

/-- A store to a variable on which the tables agree is refused by both, or goes to both alike. -/
theorem respects_store {g : Handle} (hg : g.name ∈ names) (v : Value) :
    Respects (Machine.AgreesOn names) (Run.store g v) (Run.store g v) := by
  refine .store ?_
  intro m m' h
  refine (Table.set_of_find? (h.table g.name hg) v).imp_right ?_
  rintro ⟨hs, hs'⟩
  exact ⟨_, _, hs, hs', h.table.store g.name v, h.output⟩

/-- Reads and stores at the nodes of a tree go by names of the tree. -/
theorem nodesRespect (t : Tree) : t.NodesRespect (Machine.AgreesOn t.names) :=
  ⟨fun _ hg => respects_read (Tree.name_mem_names hg),
    fun _ hg => respects_store (Tree.name_mem_names (t.targets_subset_handles hg)),
    Respects.put fun h => ⟨h.output, fun _ => ⟨h.table, rfl⟩⟩⟩

end Machine.AgreesOn

/-! ## 2. Compilations in between -/

namespace Table

/-- The table after compilations against it, one after another, whether they succeed or fail. -/
def afterCompiling (table : Table) (calls : List (Tree × Tree.Options)) : Table :=
  table.after (calls.map fun call => .compile call.1 call.2)

/-- Compilations add variables at the end and change none. -/
theorem entries_afterCompiling (table : Table) (calls : List (Tree × Tree.Options)) :
    table.entries <+: (table.afterCompiling calls).entries := by
  induction calls generalizing table with
  | nil => exact List.prefix_rfl
  | cons call calls ih =>
    have hfirst : leaves (Use.compile call.1 call.2).run table =
        leaves (call.1.compile call.2) table := by
      simp only [leaves, Use.run, Use.through, id]
      cases call.1.compile call.2 table <;> rfl
    refine (call.1.compile_extends call.2 table).1.trans ?_
    rw [← hfirst]
    exact ih (leaves (Use.compile call.1 call.2).run table)

/-- Tables agree on what was registered before some of them were compiled against. -/
theorem agreesOn_afterCompiling (table : Table) (calls : List (Tree × Tree.Options))
    {names : List String} (h : ∀ name ∈ names, name ∈ table.names) :
    table.AgreesOn names (table.afterCompiling calls) := by
  intro name hname
  obtain ⟨v, hv, rfl⟩ := List.mem_map.mp (h name hname)
  cases hfind : table.find? v.name with
  | none => exact absurd (decide_eq_true rfl) (List.find?_eq_none.mp hfind v hv)
  | some w =>
    have hafter := find?_of_prefix (table.entries_afterCompiling calls) hfind
    exact hafter.symm

end Table

/-- **Evaluation is local to the names in the tree.**  On tables that agree on them, evaluating a
tree, checked or not, gives the same value or stops for the same reason, has written the same and
leaves tables that agree on them again; and so does interpreting a tree before and after
compilations, if the names of its handles are registered before. -/
theorem Tree.evaluation_local (t : Tree) :
    (∀ rounds output table table', Table.AgreesOn t.names table table' →
      Alike (Machine.AgreesOn t.names) (fun v m v' m' => v = v' ∧ m.AgreesOn t.names m')
        (t.compute rounds ⟨table, output⟩) (t.compute rounds ⟨table', output⟩)) ∧
      ∀ rounds output table calls, (∀ h ∈ t.handles, h.name ∈ Table.names table) →
        Alike (Machine.AgreesOn t.names) (fun v m v' m' => v = v' ∧ m.AgreesOn t.names m')
          (t.interpret rounds ⟨table, output⟩)
          (t.interpret rounds ⟨table.afterCompiling calls, output⟩) := by
  refine ⟨fun rounds output table table' h => ?_, fun rounds output table calls h => ?_⟩
  · exact t.compute_respects rounds (Machine.AgreesOn.nodesRespect t) _ _ ⟨h, rfl⟩
  · have hnames : ∀ name ∈ t.names, name ∈ table.names := by
      intro name hname
      obtain ⟨g, hg, rfl⟩ := List.mem_map.mp hname
      exact h g hg
    exact t.interpret_respects rounds (Machine.AgreesOn.nodesRespect t) (fun h => h.output) _ _
      ⟨table.agreesOn_afterCompiling calls hnames, rfl⟩

/-- A loop that counts to three, writes and then fails on a store of the wrong kind, on a table in
which another variable comes first and on one in which one comes last; and the loop interpreted
before and after compilations, of which the first succeeds and the second gives up on its label
when it has registered its constants. -/
theorem Tree.evaluation_local_counting :
    let x : Handle := ⟨"x", .integer⟩
    let one : Tree := .constant (.integer 1)
    let less : Tree := .binary (.comparison .less) (.reference x) (.constant (.integer 3))
    let count : Tree := .loop less (.assign x (.binary (.arithmetic .add) (.reference x) one))
    let t : Tree :=
      .block [count, .write (.reference x) true, .assign x (.constant (.boolean true))]
    let table : Table := ⟨[⟨"y", .real, .real 2⟩, ⟨"x", .integer, .integer 0⟩], "_tempVar", 1⟩
    let table' : Table := ⟨[⟨"x", .integer, .integer 0⟩, ⟨"_t5", .string, .string "a"⟩], "_t", 5⟩
    let calls : List (Tree × Options) := [(count, .standard), (.choice less count, ⟨.legacy, true⟩)]
    (table.AgreesOn t.names table' ∧
      Alike (Machine.AgreesOn t.names) (fun v m v' m' => v = v' ∧ m.AgreesOn t.names m')
        (t.compute 9 ⟨table, .unbounded⟩) (t.compute 9 ⟨table', .unbounded⟩)) ∧
      (∀ h ∈ count.handles, h.name ∈ table.names) ∧
      (table.afterCompiling calls).entries.length = 12 ∧
      Alike (Machine.AgreesOn count.names) (fun v m v' m' => v = v' ∧ m.AgreesOn count.names m')
        (count.interpret 9 ⟨table, .unbounded⟩)
        (count.interpret 9 ⟨table.afterCompiling calls, .unbounded⟩) := by
  intro x one less count t table table' calls
  have hagree : table.AgreesOn t.names table' := by
    intro name hname
    obtain rfl : name = "x" := by
      simpa [t, count, less, one, x, names, handles, subtrees, subtreesAll, rootHandles] using hname
    rfl
  have hregistered : ∀ h ∈ count.handles, h.name ∈ table.names := by
    intro h hh
    obtain rfl : h = x := by
      simpa [count, less, one, handles, subtrees, rootHandles] using hh
    exact List.mem_cons_of_mem _ List.mem_cons_self
  exact ⟨⟨hagree, (evaluation_local t).1 9 .unbounded table table' hagree⟩, hregistered,
    by decide +kernel, (evaluation_local count).2 9 .unbounded table calls hregistered⟩

end ProcTree
