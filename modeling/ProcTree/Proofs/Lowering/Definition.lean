/-
# Written before it is read

A temporary is registered before anything is written to it, so a machine that runs lowered code
would find some value there in any case.  This file says that it finds the right one: what an
instruction reads was there before lowering, holds a constant, or was written.

* `Computation`: code that goes straight on, fills temporaries of its own, and reads what is known
  by then.  The constants among the temporaries are only read.
* `Tree.lower_computation`: the code of an expression is one, and the value is known behind it.
* `Tree.lower_provided`: statements jump, so an earlier instruction need not have been executed.  In
  the code of any tree whose handles name registered variables, a temporary is provided where it is
  read: there is no way to that place around the instruction that writes it.
-/
import ProcTree.Proofs.Lowering.Tracking

namespace ProcTree

/-! ## 1. What is known -/

/-- The variable is in the table, holds a constant, or was written by this code. -/
def Known (table : Table) (constants : List Variable) (code : List Instruction) (h : Handle) :
    Prop :=
  h.name ∈ table.names ∨ h ∈ constants.map Variable.handle ∨ Writes code h.name

/-- Code without labels and jumps.  Every instruction fills one of the results, which are neither in
the table nor among the constants, and reads what is known by then.  What it adds to, the
instruction before it has filled with a copy. -/
structure Computation (table : Table) (constants results : List Variable)
    (code : List Instruction) : Prop where
  straight : ∀ i ∈ code, i.Straight
  fills : ∀ i ∈ code, ∃ v ∈ results, i.destination? = some v.handle ∧ v.name ∉ table.names ∧
    v.name ∉ constants.map Variable.name
  reads : ∀ before i after, code = before ++ i :: after →
    ∀ s ∈ i.sources, Known table constants before s
  copies : ∀ before i after, code = before ++ i :: after → ∀ n a, i.opcode = .accumulate n a →
    ∃ rest j, before = rest ++ [j] ∧ j.opcode = .copy n ∧ j.destination? = i.destination?

/-- The temporaries of constants are not written, and what is read was in the table, holds a constant
or is provided where it is read. -/
structure Provided (table : Table) (constants : List Variable) (code : List Instruction) :
    Prop where
  spares : ∀ i ∈ code, ∀ d, i.destination? = some d → d.name ∉ constants.map Variable.name
  reads : ∀ before i after, code = before ++ i :: after → ∀ s ∈ i.sources,
    s.name ∈ table.names ∨ s ∈ constants.map Variable.handle ∨ Provides before s

/-- The second builder is the first one with the temporaries of constants and of results, obtained in
some order, and with this code. -/
structure Builder.Gains (constants results : List Variable) (segment : List Instruction)
    (b b' : Builder) : Prop where
  code : b'.code = b.code ++ segment
  table : ∃ new, b.table.Gains new b'.table ∧ new.Perm (constants ++ results)

namespace Additions

variable {start b : Builder} {whole : Tree} {r : Additions} {before after : List Instruction}
  {h : Handle}

/-- What can be read is known. -/
theorem Offers.known (ho : r.Offers start whole before h) :
    Known start.table r.constants before h := by
  rcases ho with hn | hm | hp | ⟨-, hw⟩
  · exact .inl hn
  · exact .inr (.inl hm)
  · exact .inr (.inr hp.writes)
  · exact .inr (.inr hw)

/-- If the handles of the tree name variables of the first table, then what else can be read is
provided. -/
theorem Offers.provided (ho : r.Offers start whole before h)
    (hnames : ∀ g ∈ whole.handles, g.name ∈ start.table.names) :
    h.name ∈ start.table.names ∨ h ∈ r.constants.map Variable.handle ∨ Provides before h := by
  rcases ho with hn | hm | hp | ⟨hg, -⟩
  · exact .inl hn
  · exact .inr (.inl hm)
  · exact .inr (.inr hp)
  · obtain ⟨g, hg, hname⟩ := List.mem_map.mp hg
    exact .inl (hname ▸ hnames g hg)

theorem Describe.gains (hd : r.Describe start whole b) :
    start.Gains r.constants r.results r.code b := ⟨hd.code, hd.table⟩

/-- The temporaries have names of their own. -/
theorem Describe.fresh (hd : r.Describe start whole b) {v : Variable}
    (hv : v ∈ r.constants ++ r.results) : v.name ∉ start.table.names := by
  obtain ⟨new, hgains, hperm⟩ := hd.table
  exact hgains.fresh v (hperm.mem_iff.mpr hv)

/-- No result has the name of a constant. -/
theorem Describe.apart (hd : r.Describe start whole b) {v : Variable} (hv : v ∈ r.results) :
    v.name ∉ r.constants.map Variable.name := by
  obtain ⟨new, hgains, hperm⟩ := hd.table
  have hnodup := (hperm.map Variable.name).nodup_iff.mp hgains.nodup
  rw [List.map_append] at hnodup
  intro hc
  exact (List.nodup_append.mp hnodup).2.2 _ hc _ (List.mem_map_of_mem hv) rfl

/-- **Straight code for an expression is a computation.** -/
theorem Describe.computation (hd : r.Describe start whole b) {literals : List Value}
    (hr : empty.Runs literals r) (ht : whole.targets = []) :
    Computation start.table r.constants r.results r.code := by
  obtain ⟨segment, hcode, hcomputes⟩ := hr.computes
  obtain rfl : r.code = segment := hcode
  refine ⟨fun i hi => (hcomputes i hi).1, fun i hi => ?_, fun before i after e s hs => ?_,
    fun before i after e => (hd.admitted before i after e).accumulate⟩
  · obtain ⟨d, hdest⟩ := (hcomputes i hi).2
    obtain ⟨before, after, e⟩ := List.append_of_mem hi
    rcases (hd.admitted before i after e).destination d hdest with hm | hm
    · obtain ⟨v, hv, rfl⟩ := List.mem_map.mp hm
      exact ⟨v, hv, hdest, hd.fresh (List.mem_append_right _ hv), hd.apart hv⟩
    · rw [ht] at hm
      exact absurd hm List.not_mem_nil
  · exact ((hd.admitted before i after e).sources s hs).known

end Additions

/-! ## 2. Expressions -/

namespace Tree
open Additions

variable {layout : ChoiceLayout} {b b' : Builder} {r : Option Handle}

/-- What has a type gives a variable. -/
theorem lower_eq_some {t : Tree} (ht : t.staticType ≠ none) (h : t.lower layout b = .ok r b') :
    ∃ g, r = some g := by
  cases t with
  | constant v => exact ⟨_, (lower_constant_iff.mp h).1⟩
  | reference g =>
    obtain ⟨g, -, hr, -⟩ := lower_reference_iff.mp h
    exact ⟨g, hr⟩
  | negation a =>
    obtain ⟨source, b₁, -, hr, -⟩ := lower_negation_iff.mp h
    exact ⟨_, hr⟩
  | binary op a₁ a₂ =>
    obtain ⟨left, b₁, -, right, b₂, -, h⟩ := lower_binary_iff.mp h
    obtain ⟨k, hk⟩ := Option.ne_none_iff_exists'.mp ht
    rw [staticType] at hk
    rw [hk] at h
    exact ⟨_, (Lowering.combined_eq_ok_iff.mp h).1⟩
  | _ => exact absurd rfl ht

/-- What gives a variable is an expression throughout: no layout changes it, and it assigns
nothing. -/
theorem lowered_of_ok {t : Tree} : ∀ {b b' : Builder} {g : Handle},
    t.lower layout b = .ok (some g) b' → t.lowered layout = t ∧ t.targets = [] := by
  induction t using Tree.ind with
  | constant v => exact fun _ => ⟨rfl, rfl⟩
  | reference g => exact fun _ => ⟨rfl, rfl⟩
  | negation a iha =>
    intro b b' g h
    obtain ⟨source, b₁, ha, -⟩ := lower_negation_iff.mp h
    obtain ⟨hl, ht⟩ := iha ha
    exact ⟨by rw [lowered, hl], by simp [targets_eq (.negation a), rootTargets, children, ht]⟩
  | binary op a₁ a₂ ih₁ ih₂ =>
    intro b b' g h
    obtain ⟨left, b₁, h₁, right, b₂, h₂, -⟩ := lower_binary_iff.mp h
    obtain ⟨hl₁, ht₁⟩ := ih₁ h₁
    obtain ⟨hl₂, ht₂⟩ := ih₂ h₂
    refine ⟨by rw [lowered, hl₁, hl₂], ?_⟩
    simp [targets_eq (.binary op a₁ a₂), rootTargets, children, ht₁, ht₂]
  | assign g a _ =>
    intro b b' g h
    obtain ⟨-, -, -, -, hr⟩ := lower_assign_iff.mp h
    exact absurd hr (by simp)
  | write a n _ =>
    intro b b' g h
    obtain ⟨-, -, -, hr, -⟩ := lower_write_iff.mp h
    exact absurd hr (by simp)
  | choice c a _ _ =>
    intro b b' g h
    obtain ⟨-, -, -, -, -, -, hr, -⟩ := lower_choice_layout_iff.mp h
    exact absurd hr (by simp)
  | choiceElse c a₁ a₂ _ _ _ =>
    intro b b' g h
    obtain ⟨-, -, -, -, -, -, -, -, hr, -⟩ := lower_choiceElse_layout_iff.mp h
    exact absurd hr (by simp)
  | loop c a _ _ =>
    intro b b' g h
    obtain ⟨-, -, -, -, -, -, hr, -⟩ := lower_loop_iff.mp h
    exact absurd hr (by simp)
  | block ts _ =>
    intro b b' g h
    exact absurd (lower_block_iff.mp h).2 (by simp)

/-- **The code of an expression is a computation**, and its value is known behind it.  The
temporaries that the table gains are those of the constants of the expression, in order, and the
results. -/
theorem lower_computation {t : Tree} (ht : t.staticType ≠ none)
    (h : t.lower layout b = .ok r b') :
    ∃ g constants results segment, r = some g ∧ b'.nextLabel = b.nextLabel ∧
      b.Gains constants results segment b' ∧ constants.map Variable.value = t.constants ∧
      Computation b.table constants results segment ∧ Known b.table constants segment g := by
  obtain ⟨g, rfl⟩ := lower_eq_some ht h
  obtain ⟨hlowered, htargets⟩ := lowered_of_ok h
  obtain ⟨r, hd, hleaves⟩ := t.lower_describe layout b
  rw [leaves_of_ok h, hlowered] at hd
  rw [hlowered] at hleaves
  obtain ⟨hruns, hoffers⟩ := (hleaves _ _ h).2 g rfl
  obtain ⟨new, hconstants, hvalues⟩ := hruns.constants
  obtain rfl : r.constants = new := hconstants
  refine ⟨g, r.constants, r.results, r.code, rfl, ?_, hd.gains, hvalues,
    hd.computation hruns htargets, hoffers.known⟩
  rw [hd.nextLabel, hruns.labels]
  rfl

/-! ## 3. Trees -/

/-- The handles are those of the root and of its children. -/
theorem handles_eq (t : Tree) : t.handles = t.rootHandles ++ t.children.flatMap handles := by
  rw [handles, subtrees_eq, List.flatMap_cons, List.flatMap_assoc]
  rfl

/-- What a layout lowers has no other handles. -/
theorem handles_lowered_subset (layout : ChoiceLayout) (t : Tree) :
    (t.lowered layout).handles ⊆ t.handles := by
  induction t using Tree.ind with
  | constant v => exact List.Subset.refl _
  | reference g => exact List.Subset.refl _
  | negation a iha | write a n iha =>
    intro h hh
    rw [lowered, handles_eq] at hh
    rw [handles_eq]
    simp only [rootHandles, children, List.flatMap_cons, List.flatMap_nil, List.append_nil,
      List.nil_append] at hh ⊢
    exact iha hh
  | assign g a iha =>
    intro h hh
    rw [lowered, handles_eq] at hh
    rw [handles_eq]
    simp only [rootHandles, children, List.flatMap_cons, List.flatMap_nil, List.append_nil,
      List.mem_append] at hh ⊢
    exact hh.imp_right (@iha h)
  | binary _ c a ihc iha | choice c a ihc iha | loop c a ihc iha =>
    intro h hh
    rw [lowered, handles_eq] at hh
    rw [handles_eq]
    simp only [rootHandles, children, List.flatMap_cons, List.flatMap_nil, List.append_nil,
      List.nil_append, List.mem_append] at hh ⊢
    exact hh.imp (@ihc h) (@iha h)
  | choiceElse c a₁ a₂ ihc ih₁ ih₂ =>
    intro h hh
    rw [lowered, handles_eq] at hh
    rw [handles_eq]
    simp only [rootHandles, children, List.flatMap_cons, List.flatMap_nil, List.append_nil,
      List.nil_append, List.mem_append] at hh ⊢
    refine hh.imp (@ihc h) (Or.imp (@ih₁ h) fun hh => ?_)
    split at hh
    · exact ih₂ hh
    · exact absurd hh List.not_mem_nil
  | block ts ih =>
    intro h hh
    rw [lowered, loweredAll_eq, handles_eq] at hh
    rw [handles_eq]
    simp only [rootHandles, children, List.nil_append, List.mem_flatMap, List.mem_map] at hh ⊢
    obtain ⟨_, ⟨t, ht, rfl⟩, hh⟩ := hh
    exact ⟨t, ht, ih t ht hh⟩

/-- **What the code of a tree reads is provided**, if the handles of the tree name variables of the
table: there is no way to the place where a temporary is read around the instruction that writes it.
This holds of what was emitted by the time that lowering ended, however it did. -/
theorem lower_provided (layout : ChoiceLayout) (t : Tree) (b : Builder)
    (hnames : ∀ g ∈ t.handles, g.name ∈ b.table.names) :
    ∃ constants results segment,
      b.Gains constants results segment (leaves (t.lower layout) b) ∧
      (∀ v ∈ constants, v.value ∈ (t.lowered layout).constants) ∧
      (∀ v ∈ results, v.value = .zero v.kind) ∧
      (∀ r b', t.lower layout b = .ok r b' →
        constants.map Variable.value = (t.lowered layout).constants) ∧
      Provided b.table constants segment := by
  obtain ⟨r, hd, hleaves⟩ := t.lower_describe layout b
  have hnames' : ∀ g ∈ (t.lowered layout).handles, g.name ∈ b.table.names :=
    fun g hg => hnames g (handles_lowered_subset layout t hg)
  refine ⟨r.constants, r.results, r.code, hd.gains, hd.literals, hd.zeros,
    fun a b' h => ?_, fun i hi d hdest => ?_, fun before i after e s hs => ?_⟩
  · obtain ⟨new, hconstants, hvalues⟩ := (hleaves a b' h).1.constants
    obtain rfl : r.constants = new := hconstants
    exact hvalues
  · obtain ⟨before, after, e⟩ := List.append_of_mem hi
    rcases (hd.admitted before i after e).destination d hdest with hm | hm
    · obtain ⟨v, hv, rfl⟩ := List.mem_map.mp hm
      exact hd.apart hv
    · -- The target of an assignment is an old variable, and the constants are new.
      intro hc
      obtain ⟨v, hv, hname⟩ := List.mem_map.mp hc
      refine hd.fresh (List.mem_append_left _ hv) ?_
      rw [hname]
      exact hnames' d (targets_subset_handles _ hm)
  · exact ((hd.admitted before i after e).sources s hs).provided hnames'

/-- **Lowered code is written before it is read.**  From any builder, the code of an expression has
no labels and jumps, fills temporaries of its own, and reads what is known by then; its value is
known behind it, and no label is taken.  The code of any tree whose handles name registered
variables leaves the temporaries of constants alone and reads what is provided. -/
theorem lower_defined_before_use (layout : ChoiceLayout) (t : Tree) (b : Builder) :
    (t.staticType ≠ none → ∀ r b', t.lower layout b = .ok r b' →
      ∃ g constants results segment, r = some g ∧ b'.nextLabel = b.nextLabel ∧
        b.Gains constants results segment b' ∧ constants.map Variable.value = t.constants ∧
        Computation b.table constants results segment ∧ Known b.table constants segment g) ∧
      ((∀ g ∈ t.handles, g.name ∈ b.table.names) →
        ∃ constants results segment,
          b.Gains constants results segment (leaves (t.lower layout) b) ∧
          (∀ v ∈ constants, v.value ∈ (t.lowered layout).constants) ∧
          (∀ v ∈ results, v.value = .zero v.kind) ∧
          (∀ r b', t.lower layout b = .ok r b' →
            constants.map Variable.value = (t.lowered layout).constants) ∧
          Provided b.table constants segment) :=
  ⟨fun ht _ _ h => lower_computation ht h, lower_provided layout t b⟩

/-- The theorem at work on a quotient with a sum, which takes five instructions, and on a loop with
the quotient in its body. -/
theorem lower_defined_before_use_quotient :
    let x : Handle := ⟨"x", .integer⟩
    let sum : Tree := .binary (.arithmetic .add) (.reference x) (.constant (.integer 2))
    let quotient : Tree := .binary .realDivision sum (.reference x)
    let small : Tree := .binary (.comparison .less) (.reference x) (.constant (.integer 9))
    let t : Tree := .loop small (.block [.write quotient true, .assign x sum])
    let b : Builder := .ofTable ⟨[⟨"x", .integer, .integer 1⟩], "_tempVar", 0⟩
    (∃ g constants results segment, segment.length = 5 ∧
      b.Gains constants results segment (leaves (quotient.lower .structured) b) ∧
      constants.map Variable.value = [.integer 2] ∧
      Computation b.table constants results segment ∧ Known b.table constants segment g) ∧
    ∃ constants results segment, segment.length = 14 ∧
      b.Gains constants results segment (leaves (t.lower .structured) b) ∧
      Provided b.table constants segment := by
  intro x sum quotient small t b
  have hquotient : ((quotient.lower .structured).run' b).isSome = true := by decide +kernel
  obtain ⟨r, hr⟩ := eq_ok_of_isSome hquotient
  have hfive : (leaves (quotient.lower .structured) b).code.length = 5 := by decide +kernel
  have hall : (leaves (t.lower .structured) b).code.length = 14 := by decide +kernel
  have hnames : ∀ g ∈ t.handles, g.name ∈ b.table.names := by decide +kernel
  obtain ⟨g, constants, results, segment, -, -, hgains, hvalues, hc, hk⟩ :=
    (lower_defined_before_use .structured quotient b).1
      (by simp [quotient, staticType, Operator.resultTy]) r _ hr
  obtain ⟨constants', results', segment', hgains', -, -, -, hp⟩ :=
    (lower_defined_before_use .structured t b).2 hnames
  rw [hgains.code] at hfive
  rw [hgains'.code] at hall
  exact ⟨⟨g, constants, results, segment, hfive, hgains, hvalues, hc, hk⟩, constants', results',
    segment', hall, hgains', hp⟩

end Tree
end ProcTree
