/-
# Indexed tables do what tables do

An indexed table keeps its variables twice: in a list, and as a map from names to places by which
everything finds them.  It refines the table that has the list alone if the map is the index of that
table and no two variables have one name (`Table.Refines`).  Then the same is found under every name,
and stores and registrations keep it so, as registration enters names that are free.

All the rest is written in terms of these operations.  So evaluation (`Tree.compute_refines`),
lowering and compilation (`Tree.compile_refines`) give the same results, fail with the same errors
and leave tables of which one refines the other, and so does every use of a table
(`Use.run_refines`).  What is known of tables after their uses is therefore known of indexed tables:

* `Table.Refines.after`: an indexed table that began empty refines the plain one after the same uses.
* `Table.after_invariant`: its list and its map agree, and what was registered stays.
-/
import ProcTree.Proofs.Index
import ProcTree.Proofs.Lowering.Correspondence
import ProcTree.Proofs.Use

namespace ProcTree

/-! ## 1. Tables -/

/-- The indexed table has the variables of the plain one and the index of it as its map. -/
structure Table.Refines (s : IndexedTable) (t : Table) : Prop where
  toList : s.toList = t.entries
  index : s.entries.index = t.index
  tempStem : s.tempStem = t.tempStem
  nextTemp : s.nextTemp = t.nextTemp
  names_nodup : t.names.Nodup

namespace Table.Refines

variable {s : IndexedTable} {t : Table}

theorem empty (stem : String) : Refines (Table.empty stem) (Table.empty stem) :=
  ⟨rfl, rfl, rfl, rfl, List.nodup_nil⟩

/-- The place that the map has for a name is the place of the first variable of that name. -/
theorem find? (h : s.Refines t) (name : String) : s.find? name = t.find? name := by
  have hs : s.find? name = (s.entries.index name).bind fun i => s.toList[i]? := rfl
  rw [hs, h.index, h.toList, find?_eq_index h.names_nodup]

theorem contains (h : s.Refines t) (name : String) : s.contains name = t.contains name := by
  have hs : s.contains name = (s.entries.index name).isSome := rfl
  rw [hs, h.index, contains_eq_index h.names_nodup]

/-- A store goes to the one variable of the name. -/
theorem store (h : s.Refines t) (name : String) (value : Value) :
    (s.store name value).Refines (t.store name value) := by
  have hnodup : (t.store name value).names.Nodup :=
    (sameShape_store t name value).names ▸ h.names_nodup
  cases hi : t.index name with
  | none =>
    have hs : s.store name value = s := by
      simp only [Table.store, Registry.store, IndexedList.store, h.index, hi]
    have ht : t.store name value = t := store_of_not_mem ((index_eq_none_iff h.names_nodup).mp hi)
    rwa [hs, ht]
  | some i =>
    have hs : (s.store name value).entries = { s.entries with
        toList := s.toList.modify i fun v => { v with value } } := by
      simp only [Table.store, Registry.store, IndexedList.store, h.index, hi]
      rfl
    refine ⟨?_, ?_, h.tempStem, h.nextTemp, hnodup⟩
    · rw [Table.toList, hs, store_eq_index h.names_nodup hi, ← h.toList]
      rfl
    · rw [hs, index_store, ← h.index]

/-- A registration under a free name enters the name with the place that the variable takes. -/
theorem register (h : s.Refines t) {v : Variable} (hn : v.name ∉ t.names) :
    (s.register v).Refines (t.register v) := by
  refine ⟨congrArg (· ++ [v]) h.toList, ?_, h.tempStem, h.nextTemp,
    nodup_register h.names_nodup hn⟩
  rw [index_register, ← h.index, ← h.toList]
  rfl

theorem countTo (h : s.Refines t) (n : Nat) :
    Refines { s with nextTemp := n } { t with nextTemp := n } :=
  ⟨h.toList, h.index, h.tempStem, rfl, h.names_nodup⟩

/-! What is written in terms of these operations. -/

theorem set (h : s.Refines t) (name : String) (value : Value) :
    (∃ e, s.set name value = .error e ∧ t.set name value = .error e) ∨
      ∃ s' t', s.set name value = .ok s' ∧ t.set name value = .ok t' ∧ s'.Refines t' := by
  refine (set_of_find? (h.find? name) value).imp_right ?_
  rintro ⟨hs, ht⟩
  exact ⟨_, _, hs, ht, h.store name value⟩

theorem declare (h : s.Refines t) (name : String) (ty : Ty) :
    (∃ e, s.declare name ty = .error e ∧ t.declare name ty = .error e) ∨
      ∃ g s' t', s.declare name ty = .ok (g, s') ∧ t.declare name ty = .ok (g, t') ∧
        s'.Refines t' := by
  rw [Table.declare, Table.declare, h.contains]
  by_cases hc : t.contains name = true
  · rw [if_pos hc, if_pos hc]
    exact .inl ⟨_, rfl, rfl⟩
  · rw [if_neg hc, if_neg hc]
    cases ty with
    | none => exact .inl ⟨_, rfl, rfl⟩
    | some k =>
      exact .inr ⟨_, _, _, rfl, rfl, h.register fun hm => hc (contains_iff.mpr hm)⟩

theorem freeTemp (h : s.Refines t) : s.freeTemp = t.freeTemp :=
  freeTemp_of_contains h.tempStem h.contains (congrArg List.length h.toList) h.nextTemp

theorem freshName (h : s.Refines t) : s.freshName = t.freshName :=
  freshName_of_freeTemp h.tempStem h.freeTemp

/-- The name of the next temporary is free. -/
theorem withTemp (h : s.Refines t) (value : Value) :
    (s.withTemp value).Refines (t.withTemp value) := by
  rw [Table.withTemp, Table.withTemp, h.freeTemp, h.freshName]
  exact (h.countTo _).register t.freshName_not_mem

theorem obtainTemp (h : s.Refines t) (ty : Ty) : (s.obtainTemp ty).1 = (t.obtainTemp ty).1 ∧
    (s.obtainTemp ty).2.Refines (t.obtainTemp ty).2 := by
  cases ty with
  | none =>
    rw [obtainTemp_none, obtainTemp_none, h.freeTemp, h.freshName]
    exact ⟨rfl, h.countTo _⟩
  | some k =>
    rw [obtainTemp_some, obtainTemp_some, h.freshName]
    exact ⟨rfl, h.withTemp _⟩

theorem obtainTempOf (h : s.Refines t) (value : Value) :
    (s.obtainTempOf value).1 = (t.obtainTempOf value).1 ∧
      (s.obtainTempOf value).2.Refines (t.obtainTempOf value).2 := by
  rw [obtainTempOf_eq, obtainTempOf_eq, h.freshName]
  exact ⟨rfl, h.withTemp value⟩

end Table.Refines

/-! ## 2. Evaluation -/

/-- The tables refine, and the same was written. -/
structure Machine.Refines (m : Machine IndexedList) (m' : Machine) : Prop where
  table : m.table.Refines m'.table
  output : m.output = m'.output

/-- Every step of evaluation is one of a table or one of the output. -/
theorem Tree.nodesRefine (t : Tree) : t.NodesRespect Machine.Refines where
  read h _ := .read fun hm => Table.valueOf_of_find? (hm.table.find? h.name)
  store h _ v := by
    refine .store ?_
    intro m m' hm
    refine (hm.table.set h.name v).imp_right ?_
    rintro ⟨s, t, hs, ht, hst⟩
    exact ⟨s, t, hs, ht, hst, hm.output⟩
  put := .put fun hm => ⟨hm.output, fun _ => ⟨hm.table, rfl⟩⟩

/-- **Evaluation on an indexed table** ends as on the plain one. -/
theorem Tree.compute_refines (rounds : Nat) (t : Tree) :
    Respects Machine.Refines (t.compute rounds) (t.compute rounds) :=
  t.compute_respects rounds t.nodesRefine

theorem Tree.interpret_refines (rounds : Nat) (t : Tree) :
    Respects Machine.Refines (t.interpret rounds) (t.interpret rounds) :=
  t.interpret_respects rounds t.nodesRefine fun hm => hm.output

/-! ## 3. Lowering -/

/-- The tables refine, and the labels and the code so far are the same. -/
structure Builder.Refines (b : Builder IndexedList) (b' : Builder) : Prop where
  table : b.table.Refines b'.table
  nextLabel : b.nextLabel = b'.nextLabel
  code : b.code = b'.code

namespace Tree
open Lowering

theorem conveys_refines : Conveys id Builder.Refines where
  append i := by
    intro b b' h
    rw [append_apply, append_apply, Instruction.rename_id]
    exact .ok ⟨rfl, h.table, h.nextLabel, congrArg (· ++ [i]) h.code⟩
  temp k := by
    intro b b' h
    rw [temp_some, temp_some, Builder.freshName, h.table.freshName]
    exact .ok ⟨rfl, h.table.withTemp _, h.nextLabel, h.code⟩
  tempOf v := by
    intro b b' h
    rw [tempOf_apply, tempOf_apply, Builder.freshName, h.table.freshName]
    exact .ok ⟨rfl, h.table.withTemp v, h.nextLabel, h.code⟩
  newLabel := by
    intro b b' h
    rw [newLabel_apply, newLabel_apply, Builder.label, h.nextLabel]
    exact .ok ⟨rfl, h.table, congrArg (· + 1) h.nextLabel, h.code⟩

/-- Every variable is found alike, or not at all. -/
theorem finds_refines (g : Handle) : Finds id Builder.Refines g := by
  refine ⟨rfl, ?_⟩
  intro b b' h
  have hl := Table.lookup_of_find? (h.table.find? g.name)
  cases hg : b'.table.lookup g.name with
  | ok w =>
    rw [lookup_of_ok hg, lookup_of_ok (hl.trans hg)]
    exact .ok ⟨rfl, h⟩
  | error e =>
    rw [lookup_of_error hg, lookup_of_error (hl.trans hg)]
    exact .error h

/-- **Lowering on an indexed table** gives the variable and the code that it gives on the plain
one. -/
theorem lower_refines (layout : ChoiceLayout) (t : Tree) :
    Respects Builder.Refines (t.lower layout) (t.lower layout) := by
  refine (lower_relates conveys_refines layout t fun g _ => finds_refines g).mono ?_
  intro a b hab
  rwa [Handle.map_rename_id] at hab

/-- **Compilation on an indexed table** gives the same program or fails with the same error. -/
theorem compile_refines (options : Options) (t : Tree) :
    Respects Table.Refines (t.compile options) (t.compile options) := by
  intro s t' h
  have hlower := t.lower_refines options.layout (.ofTable s) (.ofTable t') ⟨h, rfl, rfl⟩
  have hprogram : ∀ {b b'}, Builder.Refines b b' → b'.program = b.program := by
    intro b b' hb
    rw [Builder.program, Builder.program, hb.table.toList, hb.code]
    rfl
  refine (compile_relates h hlower (fun hb => hb.table)
    fun hb => congrArg Program.check (hprogram hb)).mono (fun _ _ h => h) ?_
  rintro _ _ _ _ ⟨b, b', hb, rfl, rfl, rfl, rfl⟩
  exact ⟨(hprogram hb).symm, hb.table⟩

end Tree

/-! ## 4. Uses -/

namespace Use

/-- A computation on larger states in which the tables refine. -/
theorem through_refines {ε α σ σ' : Type} {R : σ → σ' → Prop} {x : EStateM ε σ α}
    {y : EStateM ε σ' α} {begins : IndexedTable → σ} {begins' : Table → σ'}
    {table : σ → IndexedTable} {table' : σ' → Table} {hands : α → Option Handle} {stop : ε → Stop}
    (hxy : Respects R x y) (hbegins : ∀ {s t}, Table.Refines s t → R (begins s) (begins' t))
    (htable : ∀ {a b}, R a b → (table a).Refines (table' b)) :
    Respects Table.Refines (through begins table hands stop x)
      (through begins' table' hands stop y) := by
  intro s t h
  have hends := hxy _ _ (hbegins h)
  unfold through
  generalize x (begins s) = p at hends
  generalize y (begins' t) = q at hends
  cases hends with
  | ok hR => exact .ok ⟨congrArg hands hR.1, htable hR.2⟩
  | error hR => exact .error (htable hR)

theorem declare_refines (name : String) (ty : Ty) :
    Respects Table.Refines (declare name ty).run (declare name ty).run := by
  intro s t h
  simp only [run]
  obtain ⟨e, hs, ht⟩ | ⟨g, s', t', hs, ht, hst⟩ := h.declare name ty
  · rw [hs, ht]
    exact .error h
  · rw [hs, ht]
    exact .ok ⟨rfl, hst⟩

theorem obtainTemp_refines (ty : Ty) :
    Respects Table.Refines (obtainTemp ty).run (obtainTemp ty).run := by
  intro s t h
  obtain ⟨hsame, hst⟩ := h.obtainTemp ty
  simp only [run, hsame]
  cases (t.obtainTemp ty).1 with
  | ok g => exact .ok ⟨rfl, hst⟩
  | error e => exact .error hst

theorem lookup_refines (name : String) :
    Respects Table.Refines (lookup name).run (lookup name).run := by
  intro s t h
  simp only [run, Table.lookup_of_find? (h.find? name)]
  cases t.lookup name with
  | ok g => exact .ok ⟨rfl, h⟩
  | error e => exact .error h

theorem set_refines (name : String) (value : Value) :
    Respects Table.Refines (set name value).run (set name value).run := by
  intro s t h
  simp only [run]
  obtain ⟨e, hs, ht⟩ | ⟨s', t', hs, ht, hst⟩ := h.set name value
  · rw [hs, ht]
    exact .error h
  · rw [hs, ht]
    exact .ok ⟨rfl, hst⟩

/-- **Every use of an indexed table** gives out the handle that it gives out on the plain one, or
fails as it fails there, and leaves an indexed table that refines what it leaves there. -/
theorem run_refines (u : Use) : Respects Table.Refines u.run u.run := by
  cases u with
  | declare name ty => exact declare_refines name ty
  | obtainTemp ty => exact obtainTemp_refines ty
  | obtainTempOf value =>
    intro s t h
    obtain ⟨hsame, hst⟩ := h.obtainTempOf value
    exact .ok ⟨congrArg some hsame, hst⟩
  | lookup name => exact lookup_refines name
  | assign h value => exact set_refines h.name value
  | set name value => exact set_refines name value
  | compute tree rounds output =>
    exact through_refines (tree.compute_refines rounds) (fun h => ⟨h, rfl⟩) fun h => h.table
  | interpret tree rounds output =>
    exact through_refines (tree.interpret_refines rounds) (fun h => ⟨h, rfl⟩) fun h => h.table
  | lower tree layout nextLabel code =>
    exact through_refines (tree.lower_refines layout) (fun h => ⟨h, rfl, rfl⟩) fun h => h.table
  | compile tree options => exact through_refines (tree.compile_refines options) id id

end Use

namespace Table

/-- **After any uses of both** the indexed table still refines the plain one. -/
theorem Refines.after {s : IndexedTable} {t : Table} (h : s.Refines t) (us : List Use) :
    (s.after us).Refines (t.after us) := by
  induction us generalizing s t with
  | nil => exact h
  | cons u us ih => exact ih ((u.run_refines s t h).leaves fun _ _ _ _ h => h.2)

/-- **What every indexed table is that began empty**, after any uses of it, successful or not.  Its
names are pairwise distinct.  The map has each name with the place of the variable of that name, and
no other name.  Every variable holds a value of its kind.  More uses leave the variables where they
are, with their names and kinds; and a handle that a use gives out is found under its name, by the
map, from then on. -/
theorem after_invariant (stem : String) (us : List Use) :
    let s : IndexedTable := (Table.empty stem).after us
    (s.toList.map Variable.name).Nodup ∧
      (∀ name i, s.entries.index name = some i ↔
        ∃ v, s.toList[i]? = some v ∧ v.name = name) ∧
      (∀ v ∈ s.toList, v.value.kind = v.kind) ∧
      (∀ more, s.toList.map Variable.handle <+: (s.after more).toList.map Variable.handle) ∧
      ∀ (u : Use) h s', u.run s = .ok (some h) s' →
        ∀ more, (s'.after more).lookup h.name = .ok h := by
  intro s
  have href : s.Refines ((Table.empty stem).after us) := (Refines.empty stem).after us
  have hw := ((Table.empty stem).evolves_after us).wellFormed (wellFormed_empty stem)
  rw [href.toList, href.index]
  refine ⟨hw.names_nodup, fun name i => index_eq_some_iff hw.names_nodup, hw.kinds, ?_, ?_⟩
  · intro more
    rw [(href.after more).toList]
    exact (evolves_after _ more).handles
  · intro u h s' hrun more
    obtain ⟨t', hrun', href'⟩ := u.run_refines.ok href hrun
    rw [lookup_of_find? ((href'.after more).find? h.name)]
    exact (t'.evolves_after more).registers ((u.moves _).ok hrun' |>.2 h rfl)

/-- The theorem at work on a table whose user takes the name of a temporary.  Along the way a
declaration is refused, a request without a type uses up a number, a store of a string into an
integer and a store into an unknown variable fail, a loop that never ends is stopped, and a
compilation gives up after it has registered its constants. -/
theorem after_invariant_collision :
    let greeting : Tree := .constant (.string "hi")
    let us : List Use := [.declare "_tempVar1" (some .integer), .declare "_tempVar1" none,
      .obtainTemp none, .declare "x" (some .integer), .obtainTempOf (.boolean true),
      .set "x" (.string "no"), .assign ⟨"y", .real⟩ (.real 1), .assign ⟨"x", .real⟩ (.integer 7),
      .compute (.loop (.constant (.boolean true)) (.block [])) 3 ⟨[], none, none⟩,
      .compile (.write (.binary (.comparison .less) greeting greeting) true) .standard]
    let s : IndexedTable := (Table.empty "_tempVar").after us
    s.toList[1]? = some ⟨"x", .integer, .integer 7⟩ ∧ s.entries.index "x" = some 1 ∧
      s.entries.index "_tempVar2" = some 2 ∧
      ∃ s', (Use.obtainTemp (some .real)).run s = .ok (some ⟨"_tempVar6", .real⟩) s' ∧
        (s'.after us).lookup "_tempVar6" = .ok ⟨"_tempVar6", .real⟩ := by
  intro greeting us s
  have hx : s.toList[1]? = some ⟨"x", .integer, .integer 7⟩ := by decide +kernel
  have htemp : s.toList[2]? = some ⟨"_tempVar2", .boolean, .boolean true⟩ := by decide +kernel
  obtain ⟨-, hindex, -, -, hgiven⟩ := after_invariant "_tempVar" us
  have hname : s.freshName = "_tempVar6" := by decide +kernel
  have hrun := Use.obtainTemp_run .real s
  rw [hname] at hrun
  exact ⟨hx, (hindex "x" 1).mpr ⟨_, hx, rfl⟩, (hindex "_tempVar2" 2).mpr ⟨_, htemp, rfl⟩, _, hrun,
    hgiven (.obtainTemp (some .real)) _ _ hrun us⟩

end Table
end ProcTree
