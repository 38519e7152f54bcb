/-
# Tables in use

A table is used again and again: variables are declared, temporaries obtained, values stored, trees
evaluated, lowered and compiled, with whatever names, types, values, handles and trees, and each
use may fail.  `Use` lists the ways to use a table, whatever registry keeps its variables, and
`Table.after` is the table after some uses of it, successful or not.

* `Table.Evolves`: variables were added at the end, none was removed, moved, renamed or given
  another kind, and the table is still well formed if it was.
* `Use.moves`: every use makes a table evolve, and what it hands out is registered.
* `Table.evolves_after`: so does every sequence of uses.
-/
import ProcTree.Proofs.Evaluation.Frame
import ProcTree.Proofs.Lowering.Extension

namespace ProcTree

/-! ## 1. Uses -/

/-- One use of a table, with all that it is given. -/
inductive Use where
  | declare (name : String) (ty : Ty)
  | obtainTemp (ty : Ty)
  | obtainTempOf (value : Value)
  | lookup (name : String)
  | assign (h : Handle) (value : Value)
  | set (name : String) (value : Value)
  | compute (t : Tree) (rounds : Nat) (output : Output)
  | interpret (t : Tree) (rounds : Nat) (output : Output)
  /-- Lowering goes on from a state of its own besides the table. -/
  | lower (t : Tree) (layout : ChoiceLayout) (nextLabel : Nat) (code : List Instruction)
  | compile (t : Tree) (options : Tree.Options)

namespace Use

variable {δ : Type}

/-- The end of a use: with the handle and the table, or with a failure and the table as it was. -/
def ending (table : Table δ) : Except Error (Option Handle × Table δ) →
    EStateM.Result Stop (Table δ) (Option Handle)
  | .ok (h, table') => .ok h table'
  | .error e => .error (.failed e) table

/-- A computation on a state that has the table in it: how the state begins, where its table is, and
what the result hands out. -/
def through {ε σ α : Type} (begins : Table δ → σ) (table : σ → Table δ)
    (hands : α → Option Handle) (stop : ε → Stop) (x : EStateM ε σ α) :
    EStateM Stop (Table δ) (Option Handle) := fun t =>
  match x (begins t) with
  | .ok a s => .ok (hands a) (table s)
  | .error e s => .error (stop e) (table s)

/-- Uses a table: the handle that is given out, if there is one, and the table that is left. -/
def run [Registry δ] : Use → EStateM Stop (Table δ) (Option Handle)
  | declare name ty => fun table =>
    ending table ((table.declare name ty).map fun p => (some p.1, p.2))
  | obtainTemp ty => fun table =>
    ending (table.obtainTemp ty).2
      ((table.obtainTemp ty).1.map fun h => (some h, (table.obtainTemp ty).2))
  | obtainTempOf value => fun table =>
    .ok (some (table.obtainTempOf value).1) (table.obtainTempOf value).2
  | lookup name => fun table => ending table ((table.lookup name).map fun h => (some h, table))
  | assign h value => fun table =>
    ending table ((table.assign h value).map fun table' => (none, table'))
  | set name value => fun table =>
    ending table ((table.set name value).map fun table' => (none, table'))
  | compute t rounds output =>
    through (fun table => ⟨table, output⟩) Machine.table (fun _ => none) id (t.compute rounds)
  | interpret t rounds output =>
    through (fun table => ⟨table, output⟩) Machine.table (fun _ => none) id (t.interpret rounds)
  | lower t layout nextLabel code =>
    through (fun table => ⟨table, nextLabel, code⟩) Builder.table id .failed (t.lower layout)
  | compile t options => through id id (fun _ => none) .failed (t.compile options)

end Use

/-- The table after uses of it, one after another, whether they succeed or fail. -/
def Table.after {δ : Type} [Registry δ] (table : Table δ) : List Use → Table δ
  | [] => table
  | u :: us => (leaves u.run table).after us

/-! ## 2. Evolution -/

/-- Variables were added at the end, and all others are where they were, under their names and
with their kinds.  The table is still well formed if it was. -/
structure Table.Evolves (t t' : Table) : Prop where
  handles : t.handles <+: t'.handles
  wellFormed : t.WellFormed → t'.WellFormed

namespace Table.Evolves

variable {t t' : Table}

theorem refl (t : Table) : t.Evolves t := ⟨List.prefix_rfl, id⟩

theorem trans {t₁ t₂ t₃ : Table} (h : t₁.Evolves t₂) (h' : t₂.Evolves t₃) : t₁.Evolves t₃ :=
  ⟨h.handles.trans h'.handles, fun hw => h'.wellFormed (h.wellFormed hw)⟩

/-- More variables at the end. -/
theorem of_entries (he : t.entries <+: t'.entries) (hw : t.WellFormed → t'.WellFormed) :
    t.Evolves t' := ⟨he.map _, hw⟩

/-- Other values. -/
theorem of_sameShape (hs : t.SameShape t') (hw : t.WellFormed → t'.WellFormed) :
    t.Evolves t' := ⟨hs.handles ▸ List.prefix_rfl, hw⟩

theorem of_follows {m m' : Machine} (h : m.Follows m') : m.table.Evolves m'.table :=
  of_sameShape h.shape h.wellFormed

theorem of_set {name : String} {value : Value} (h : t.set name value = .ok t') :
    t.Evolves t' := by
  obtain ⟨v, hv, hk, rfl⟩ := Table.set_eq_ok_iff.mp h
  exact of_sameShape (Table.sameShape_store t name value) fun hw => hw.store hv hk

/-- A registered handle stays registered. -/
theorem registers (h : t.Evolves t') {g : Handle} (hg : t.Registers g) : t'.Registers g := by
  have hfind : ∀ s : Table, s.Registers g ↔
      s.handles.find? (fun h => h.name = g.name) = some g := by
    intro s
    rw [Table.Registers, Table.lookup_eq_find?_handles]
    cases s.handles.find? (fun h => h.name = g.name) <;> simp
  obtain ⟨new, hnew⟩ := h.handles
  rw [hfind] at hg ⊢
  rw [← hnew, List.find?_append, hg]
  rfl

end Table.Evolves

/-! ## 3. One use -/

namespace Use
open Table

variable {t t' : Table}

/-- What a use hands out is registered in the table that it leaves. -/
def Registered (r : Option Handle) (t : Table) : Prop := ∀ h, r = some h → t.Registers h

theorem registered_none (t : Table) : Registered none t := fun _ h => nomatch h

theorem registered_some {h : Handle} (hh : t.Registers h) : Registered (some h) t := by
  rintro _ ⟨⟩
  exact hh

/-- An operation that leaves a table which evolved when it fails, and one with the handle that it
hands out when it succeeds. -/
theorem moves_ending {f : EStateM Stop Table (Option Handle)} {t₀ : Table}
    {x : Except Error (Option Handle × Table)} (hf : f t = ending t₀ x) (h₀ : t.Evolves t₀)
    (hx : ∀ r t', x = .ok (r, t') → t.Evolves t' ∧ Registered r t') :
    Moves Table.Evolves Registered f t := by
  cases x with
  | error e => exact .of_error hf h₀
  | ok p => exact .of_ok hf (hx p.1 p.2 rfl).1 (hx p.1 p.2 rfl).2

theorem moves_declare (name : String) (ty : Ty) :
    Moves Table.Evolves Registered (declare name ty).run t := by
  refine moves_ending rfl (.refl t) ?_
  intro r t' hr
  cases hd : t.declare name ty with
  | error e => simp [hd, Except.map] at hr
  | ok p =>
    obtain ⟨h, t₁⟩ := p
    obtain ⟨hn, k, -, rfl, rfl⟩ := declare_eq_ok_iff.mp hd
    obtain ⟨rfl, rfl⟩ : some ⟨name, k⟩ = r ∧ t.register ⟨name, k, .zero k⟩ = t' := by
      simpa [hd, Except.map] using hr
    exact ⟨.of_entries ⟨_, rfl⟩ fun hw => hw.register hn (Value.kind_zero k),
      registered_some (registers_register (v := ⟨name, k, .zero k⟩) hn)⟩

theorem obtainTemp_run {δ : Type} [Registry δ] (k : Kind) (t : Table δ) : (obtainTemp (some k)).run t =
    .ok (some ⟨t.freshName, k⟩) (t.withTemp (.zero k)) := by
  simp [run, obtainTemp_some, ending, Except.map]

/-- Without a type nothing is registered, and the number that is used up is no variable. -/
theorem moves_obtainTemp (ty : Ty) :
    Moves Table.Evolves Registered (obtainTemp ty).run t := by
  cases ty with
  | none =>
    have hrun : (obtainTemp none).run t = .error (.failed (.untypedVariable t.freshName))
        { t with nextTemp := t.freeTemp + 1 } := by
      simp [run, obtainTemp_none, ending, Except.map]
    exact .of_error hrun (.of_entries List.prefix_rfl fun hw => ⟨hw.1, hw.2⟩)
  | some k =>
    have hreg := t.registers_withTemp (.zero k)
    rw [Value.kind_zero] at hreg
    exact .of_ok (obtainTemp_run k t) (.of_entries ⟨_, rfl⟩ fun hw => hw.withTemp _)
      (registered_some hreg)

theorem moves_lookup (name : String) : Moves Table.Evolves Registered (lookup name).run t := by
  refine moves_ending rfl (.refl t) ?_
  intro r t' hr
  cases hl : t.lookup name with
  | error e => simp [hl, Except.map] at hr
  | ok h =>
    obtain ⟨rfl, rfl⟩ : some h = r ∧ t = t' := by simpa [hl, Except.map] using hr
    obtain ⟨v, hv, rfl⟩ := lookup_eq_ok_iff.mp hl
    refine ⟨.refl t, registered_some (registers_iff.mpr ⟨v, ?_, rfl⟩)⟩
    rwa [Variable.handle, name_of_find? hv]

theorem moves_set (name : String) (value : Value) :
    Moves Table.Evolves Registered (set name value).run t := by
  refine moves_ending rfl (.refl t) ?_
  intro r t' hr
  cases hs : t.set name value with
  | error e => simp [hs, Except.map] at hr
  | ok t₁ =>
    obtain ⟨rfl, rfl⟩ : none = r ∧ t₁ = t' := by simpa [hs, Except.map] using hr
    exact ⟨.of_set hs, registered_none t₁⟩

/-- A computation on a larger state is judged by the table in it. -/
theorem moves_through {ε σ α : Type} {begins : Table → σ} {table : σ → Table}
    {hands : α → Option Handle} {stop : ε → Stop} {x : EStateM ε σ α}
    (hstep : t.Evolves (table (leaves x (begins t))))
    (hresult : ∀ a s, x (begins t) = .ok a s → Registered (hands a) (table s)) :
    Moves Table.Evolves Registered (through begins table hands stop x) t := by
  cases hx : x (begins t) with
  | ok a s =>
    rw [leaves_of_ok hx] at hstep
    have hrun : through begins table hands stop x t = .ok (hands a) (table s) := by
      simp only [through, hx]
    exact .of_ok hrun hstep (hresult a s hx)
  | error e s =>
    rw [leaves_of_error hx] at hstep
    have hrun : through begins table hands stop x t = .error (stop e) (table s) := by
      simp only [through, hx]
    exact .of_error hrun hstep

/-- **Every use makes a table evolve**, however it ends, and hands out registered handles. -/
theorem moves (u : Use) (t : Table) : Moves Table.Evolves Registered u.run t := by
  cases u with
  | declare name ty => exact moves_declare name ty
  | obtainTemp ty => exact moves_obtainTemp ty
  | obtainTempOf value =>
    exact .of_ok rfl (.of_entries ⟨_, rfl⟩ fun hw => hw.withTemp value)
      (registered_some (t.registers_withTemp value))
  | lookup name => exact moves_lookup name
  | assign h value => exact moves_set h.name value
  | set name value => exact moves_set name value
  | compute tree rounds output =>
    exact moves_through (.of_follows (tree.compute_follows rounds ⟨t, output⟩))
      fun _ _ _ => registered_none _
  | interpret tree rounds output =>
    exact moves_through (.of_follows (tree.interpret_follows rounds ⟨t, output⟩))
      fun _ _ _ => registered_none _
  | lower tree layout nextLabel code =>
    obtain ⟨hstep, hresult⟩ :=
      tree.lower_moves layout (b := ⟨t, nextLabel, code⟩) fun _ hh => hh
    exact moves_through (.of_entries hstep.entries hstep.wellFormed) hresult
  | compile tree options =>
    obtain ⟨hentries, hwell⟩ := tree.compile_extends options t
    exact moves_through (.of_entries hentries hwell) fun _ _ _ => registered_none _

end Use

/-! ## 4. Many uses -/

namespace Table

/-- **A table evolves along its uses.** -/
theorem evolves_after (t : Table) (us : List Use) : t.Evolves (t.after us) := by
  induction us generalizing t with
  | nil => exact .refl t
  | cons u us ih => exact (u.moves t).1.trans (ih (leaves u.run t))

theorem wellFormed_empty (stem : String) : (Table.empty stem).WellFormed :=
  ⟨List.nodup_nil, fun _ hv => nomatch hv⟩

end Table
end ProcTree
