/-
# Code up to the names of temporaries

Lowering asks a table for temporaries and takes the names as they come.  So two tables that register
the variables of a tree alike give the same code but for these names, whatever else is in them and
however their names are made up.

* `Table.translate`: each name to come in one table goes to the name that comes at the same turn in
  the other.  No name that is registered is affected.
* `Tree.compile_mirrors`: compilations against two tables end alike, with the same values in the
  temporaries and with code that this renaming takes from one to the other.
-/
import Mathlib.Logic.Function.Basic
import ProcTree.Proofs.Lowering.Correspondence
import ProcTree.Proofs.Lowering.Intact
import ProcTree.Proofs.Temporaries

namespace ProcTree

/-! ## 1. The names to come -/

namespace Table

/-- The name that is to come in the first table goes to the one that comes at the same turn in the
second table, and all other names stay. -/
noncomputable def translate (S L : Table) : String → String := Function.extend S.tempAt L.tempAt id

variable {S L : Table}

@[simp] theorem translate_tempAt (S L : Table) (k : Nat) :
    S.translate L (S.tempAt k) = L.tempAt k :=
  S.tempAt_injective.extend_apply L.tempAt id k

/-- A registered name stays. -/
theorem translate_of_mem {name : String} (h : name ∈ S.names) : S.translate L name = name := by
  refine Function.extend_apply' _ _ _ ?_
  rintro ⟨k, rfl⟩
  exact S.tempAt_not_mem k h

/-- Temporaries that hold the same values are renamed into each other. -/
theorem temps_translate (S L : Table) (vs : List Value) :
    L.temps vs = (S.temps vs).map (Variable.rename (S.translate L)) := by
  refine List.ext_getElem (by simp [temps]) fun k _ _ => ?_
  simp [temps, Variable.rename]

/-- No two of the names that both tables register and of those to come get the same name. -/
theorem translate_injOn (S L : Table) {a b : String}
    (ha : (a ∈ S.names ∧ a ∈ L.names) ∨ ∃ k, a = S.tempAt k)
    (hb : (b ∈ S.names ∧ b ∈ L.names) ∨ ∃ k, b = S.tempAt k)
    (h : S.translate L a = S.translate L b) : a = b := by
  rcases ha with ⟨ha, ha'⟩ | ⟨j, rfl⟩ <;> rcases hb with ⟨hb, hb'⟩ | ⟨k, rfl⟩
  · rwa [translate_of_mem ha, translate_of_mem hb] at h
  · rw [translate_of_mem ha, translate_tempAt] at h
    exact absurd (h ▸ ha') (L.tempAt_not_mem k)
  · rw [translate_of_mem hb, translate_tempAt] at h
    exact absurd (h ▸ hb') (L.tempAt_not_mem j)
  · rw [translate_tempAt, translate_tempAt] at h
    rw [L.tempAt_injective h]

end Table

/-! ## 2. Compilations -/

namespace Tree
open Lowering

variable {S L : Table} {layout : ChoiceLayout} {options : Options} {t : Tree}

/-- Both tables register the variables that the tree names, and with the same kinds. -/
def AgreeOn (t : Tree) (S L : Table) : Prop :=
  ∀ g ∈ t.handles, ∃ h, S.lookup g.name = .ok h ∧ L.lookup g.name = .ok h

/-- The builders have come from the two tables with the same values in their temporaries, as many
labels, and the same code but for the names. -/
def Mirrors (S L : Table) (s l : Builder) : Prop :=
  ∃ vs, s.table = S.withTemps vs ∧ l.table = L.withTemps vs ∧ s.nextLabel = l.nextLabel ∧
    l.code = s.code.map (Instruction.rename (S.translate L))

theorem Mirrors.withTemp {s l : Builder} (h : Mirrors S L s l) (v : Value) :
    (⟨s.freshName, v.kind⟩ : Handle).rename (S.translate L) = ⟨l.freshName, v.kind⟩ ∧
      Mirrors S L (s.withTemp v) (l.withTemp v) := by
  obtain ⟨vs, hs, hl, hlabel, hcode⟩ := h
  constructor
  · rw [Builder.freshName, Builder.freshName, hs, hl, Table.freshName_withTemps,
      Table.freshName_withTemps, Handle.rename, Table.translate_tempAt]
  · refine ⟨vs ++ [v], ?_, ?_, hlabel, hcode⟩
    · rw [Table.withTemps_concat, Builder.table_withTemp, hs]
    · rw [Table.withTemps_concat, Builder.table_withTemp, hl]

theorem conveys_mirrors (S L : Table) : Conveys (S.translate L) (Mirrors S L) where
  append i := by
    rintro s l ⟨vs, hs, hl, hlabel, hcode⟩
    rw [append_apply, append_apply]
    refine .ok ⟨rfl, vs, hs, hl, hlabel, ?_⟩
    rw [Builder.code_push, Builder.code_push, List.map_append, hcode]
    rfl
  temp k := by
    intro s l h
    have hzero := h.withTemp (.zero k)
    rw [Value.kind_zero] at hzero
    rw [temp_some, temp_some]
    exact .ok hzero
  tempOf v := by
    intro s l h
    rw [tempOf_apply, tempOf_apply]
    exact .ok (h.withTemp v)
  newLabel := by
    rintro s l ⟨vs, hs, hl, hlabel, hcode⟩
    rw [newLabel_apply, newLabel_apply, Builder.label, Builder.label, hlabel]
    exact .ok ⟨rfl, vs, hs, hl, congrArg (· + 1) hlabel, hcode⟩

/-- A handle that both tables register is not renamed and is found alike. -/
theorem finds_of_agreeOn (h : t.AgreeOn S L) {g : Handle} (hg : g ∈ t.handles) :
    Finds (S.translate L) (Mirrors S L) g := by
  obtain ⟨k, hS, hL⟩ := h g hg
  obtain ⟨hname, hmem⟩ := Table.mem_names_of_lookup hS
  have fixed : ∀ {f : Handle}, f.name = g.name → f.rename (S.translate L) = f := by
    intro f hf
    rw [Handle.rename, Table.translate_of_mem (hf ▸ hmem)]
  refine ⟨fixed rfl, ?_⟩
  rintro s l ⟨vs, hs, hl, hrest⟩
  rw [lookup_of_ok (hs ▸ Table.lookup_of_prefix (S.gains_withTemps vs).grows hS),
    lookup_of_ok (hl ▸ Table.lookup_of_prefix (L.gains_withTemps vs).grows hL)]
  exact .ok ⟨fixed hname, vs, hs, hl, hrest⟩

/-- The check of labels does not look at names. -/
theorem check_rename (ρ : String → String) (code : List Instruction) :
    checkLabels (code.map (Instruction.rename ρ)) = checkLabels code := by
  simp [checkLabels, List.filterMap_map, Function.comp_def]

/-- The tables have gained temporaries with the same values. -/
def GainAlike (S L s l : Table) : Prop := ∃ vs, s = S.withTemps vs ∧ l = L.withTemps vs

/-- **Two compilations of a tree end alike**: with the same failure, or with code that is the same
but for the names of the temporaries; and either way the temporaries hold the same values. -/
theorem compile_mirrors (options : Options) (h : t.AgreeOn S L) :
    Alike (GainAlike S L)
      (fun p s q l => q.code = p.code.map (Instruction.rename (S.translate L)) ∧
        GainAlike S L s l)
      (t.compile options S) (t.compile options L) := by
  have hlower := lower_relates (conveys_mirrors S L) options.layout t
    (fun g hg => finds_of_agreeOn h hg) (.ofTable S) (.ofTable L) ⟨[], rfl, rfl, rfl, rfl⟩
  have hgain : ∀ {s l}, Mirrors S L s l → GainAlike S L s.table l.table := by
    rintro s l ⟨vs, hs, hl, -⟩
    exact ⟨vs, hs, hl⟩
  refine (compile_relates (T := GainAlike S L) ⟨[], rfl, rfl⟩ hlower hgain ?_).mono
    (fun _ _ h => h) ?_
  · rintro s l ⟨-, -, -, -, hcode⟩
    rw [Program.check, Program.check, Builder.program, Builder.program, hcode, check_rename]
  · rintro _ _ _ _ ⟨s, l, hmirrors, rfl, rfl, rfl, rfl⟩
    have hsame := hgain hmirrors
    obtain ⟨-, -, -, -, hcode⟩ := hmirrors
    exact ⟨hcode, hsame⟩

/-- Compilations of the tree against two tables differ in names only.  Both tables gain as many
temporaries, with the same kinds and values, and the compilations fail alike or give the same code,
if each name is replaced by another one.  The names that the first table registers stay, and no two
names of the tree and of temporaries become one. -/
structure Renames (t : Tree) (options : Options) (S L : Table) (new new' : List Variable)
    (ρ : String → String) : Prop where
  gains : S.Gains new (leaves (t.compile options) S)
  gains' : L.Gains new' (leaves (t.compile options) L)
  temporaries : new' = new.map (Variable.rename ρ)
  fixes : ∀ name ∈ S.names, ρ name = name
  injective : ∀ a ∈ t.handles.map Handle.name ++ new.map Variable.name,
    ∀ b ∈ t.handles.map Handle.name ++ new.map Variable.name, ρ a = ρ b → a = b
  outcome : Alike (fun _ _ => True)
    (fun p _ q _ => q.code = p.code.map (Instruction.rename ρ))
    (t.compile options S) (t.compile options L)

theorem AgreeOn.mem_names (h : t.AgreeOn S L) {name : String}
    (hn : name ∈ t.handles.map Handle.name) : name ∈ S.names ∧ name ∈ L.names := by
  obtain ⟨g, hg, rfl⟩ := List.mem_map.mp hn
  obtain ⟨k, hS, hL⟩ := h g hg
  exact ⟨(Table.mem_names_of_lookup hS).2, (Table.mem_names_of_lookup hL).2⟩

/-- Two tables that register a tree alike may be exchanged. -/
theorem exists_renames (options : Options) (h : t.AgreeOn S L) :
    ∃ new new', t.Renames options S L new new' (S.translate L) := by
  have halike := compile_mirrors options h
  obtain ⟨vs, hS, hL⟩ := halike.leaves fun _ _ _ _ hQ => hQ.2
  have hnames : ∀ {name}, name ∈ t.handles.map Handle.name ++ (S.temps vs).map Variable.name →
      (name ∈ S.names ∧ name ∈ L.names) ∨ ∃ k, name = S.tempAt k := by
    intro name hn
    rcases List.mem_append.mp hn with hn | hn
    · exact .inl (h.mem_names hn)
    · rw [Table.names_temps] at hn
      obtain ⟨k, -, hk⟩ := List.mem_map.mp hn
      exact .inr ⟨k, hk.symm⟩
  refine ⟨S.temps vs, L.temps vs, hS ▸ S.gains_withTemps vs, hL ▸ L.gains_withTemps vs,
    Table.temps_translate S L vs, fun name hn => Table.translate_of_mem hn, ?_,
    halike.mono (fun _ _ _ => trivial) fun _ _ _ _ hQ => hQ.1⟩
  exact fun a ha b hb => Table.translate_injOn S L (hnames ha) (hnames hb)

/-- A compilation leaves a table that registers the tree as it did before. -/
theorem agreeOn_leaves (options : Options) (h : ∀ g ∈ t.handles, ∃ k, S.lookup g.name = .ok k) :
    t.AgreeOn S (leaves (t.compile options) S) := by
  intro g hg
  obtain ⟨k, hk⟩ := h g hg
  exact ⟨k, hk, Table.lookup_of_prefix (compile_extends t options S).1 hk⟩

/-- **Compiling depends on the names of temporaries up to a renaming.**  Against any two tables that
register the variables of a tree with the same kinds, a tree compiles alike: the same failure or the
same code but for the names, and as many temporaries with the same kinds and values.  In particular
that is so of two compilations of one tree, one after the other, against one table, and then none of
the temporaries of one is a temporary of the other. -/
theorem compile_up_to_names (t : Tree) (options : Options) :
    (∀ S L, t.AgreeOn S L → ∃ new new' ρ, t.Renames options S L new new' ρ) ∧
    ∀ S : Table, (∀ g ∈ t.handles, ∃ h, S.lookup g.name = .ok h) →
      ∃ new new' ρ, t.Renames options S (leaves (t.compile options) S) new new' ρ ∧
        ∀ v ∈ new, ∀ w ∈ new', v.name ≠ w.name := by
  refine ⟨fun S L h => ?_, fun S h => ?_⟩
  · obtain ⟨new, new', hrenames⟩ := exists_renames options h
    exact ⟨new, new', S.translate L, hrenames⟩
  · obtain ⟨new, new', hrenames⟩ := exists_renames options (agreeOn_leaves options h)
    refine ⟨new, new', _, hrenames, fun v hv w hw e => ?_⟩
    refine hrenames.gains'.fresh w hw ?_
    rw [hrenames.gains.names, ← e]
    exact List.mem_append_right _ (List.mem_map_of_mem hv)

/-- The theorem at work on a sum.  The first table has a variable with the name of its first
temporary, so that is passed over; the second table names its temporaries otherwise.  A second
compilation against the first table goes on where the first one has stopped. -/
theorem compile_up_to_names_collision :
    let x : Handle := ⟨"x", .integer⟩
    let t : Tree :=
      .assign x (.binary (.arithmetic .add) (.reference x) (.constant (.integer 1)))
    let X : Variable := ⟨"x", .integer, .integer 5⟩
    let S : Table := ⟨[X, ⟨"_tempVar0", .boolean, .boolean true⟩], "_tempVar", 0⟩
    let L : Table := ⟨[⟨"y", .integer, .integer 0⟩, X], "t", 7⟩
    (∃ new new' ρ, t.Renames .standard S L new new' ρ ∧
      new.map Variable.name = ["_tempVar1", "_tempVar2"] ∧
      new'.map Variable.name = ["t7", "t8"]) ∧
    ∃ new new' ρ, t.Renames .standard S (leaves (t.compile .standard) S) new new' ρ ∧
      new'.map Variable.name = ["_tempVar3", "_tempVar4"] ∧
      ∀ v ∈ new, ∀ w ∈ new', v.name ≠ w.name := by
  intro x t X S L
  have hx : ∀ g ∈ t.handles, g = x := by decide +kernel
  have hfirst : (leaves (t.compile .standard) S).names = S.names ++ ["_tempVar1", "_tempVar2"] := by
    decide +kernel
  have hother : (leaves (t.compile .standard) L).names = L.names ++ ["t7", "t8"] := by
    decide +kernel
  have hagain : (leaves (t.compile .standard) (leaves (t.compile .standard) S)).names =
      (leaves (t.compile .standard) S).names ++ ["_tempVar3", "_tempVar4"] := by decide +kernel
  have hagree : t.AgreeOn S L := fun g hg => hx g hg ▸ ⟨x, rfl, rfl⟩
  obtain ⟨new, new', ρ, hrenames⟩ := (compile_up_to_names t .standard).1 S L hagree
  obtain ⟨first, second, ρ', hrenames', hapart⟩ :=
    (compile_up_to_names t .standard).2 S fun g hg => hx g hg ▸ ⟨x, rfl⟩
  rw [hrenames.gains.names] at hfirst
  rw [hrenames.gains'.names] at hother
  rw [hrenames'.gains'.names] at hagain
  exact ⟨⟨new, new', ρ, hrenames, List.append_cancel_left hfirst, List.append_cancel_left hother⟩,
    first, second, ρ', hrenames', List.append_cancel_left hagain, hapart⟩

end Tree
end ProcTree
