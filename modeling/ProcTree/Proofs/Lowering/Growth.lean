/-
# Lowered code grows

Lowering only adds: variables at the end of the table and instructions at the end of the code.  A
new instruction writes to a variable that the tree assigns to or to one that was registered by this
very step (`Builder.Grows`).  So code that comes later never touches what an expression left in a
temporary, and a constant's temporary is never written at all.

* `Tree.lower_grows`: lowering grows the builder, and writes the tree's targets and new variables.
* `Tree.registers_of_lower`: the variable with the value of a tree is registered, with the tree's
  static type as its kind.
-/
import ProcTree.Proofs.Lowering.Steps
import ProcTree.Proofs.Operator

namespace ProcTree

/-! ## 1. What an instruction writes -/

/-- The variable that is written: the first one, when there are others to read. -/
def Operands.destination? : Operands → Option Handle
  | .two d _ | .three d _ _ => some d
  | .empty | .one _ | .target _ | .oneTarget _ _ => none

/-- The variable that the instruction writes. -/
def Instruction.destination? (i : Instruction) : Option Handle := i.operands.destination?

/-- Some instruction of the code writes the variable of this name. -/
def Writes (code : List Instruction) (name : String) : Prop :=
  ∃ i ∈ code, ∃ d, i.destination? = some d ∧ d.name = name

/-! ## 2. Growth -/

namespace Builder

/-- The second builder has all that the first one has and more at the end, is well formed if the
first one is, and its new code writes free names and new variables only. -/
structure Grows (free : String → Prop) (b b' : Builder) : Prop where
  entries : b.table.entries <+: b'.table.entries
  wellFormed : b.table.WellFormed → b'.table.WellFormed
  code : ∃ segment, b'.code = b.code ++ segment ∧ ∀ name, Writes segment name →
    free name ∨ (name ∉ b.table.names ∧ name ∈ b'.table.names)

namespace Grows

variable {free free' : String → Prop} {b b₁ b₂ b' : Builder}

theorem refl (b : Builder) : Grows free b b :=
  ⟨List.prefix_rfl, id, [], by simp, fun _ h => by simp [Writes] at h⟩

/-- Growth composes: a variable that is new later is new now, and one that is new now stays. -/
theorem trans (h : Grows free b b₁) (h' : Grows free b₁ b₂) : Grows free b b₂ := by
  obtain ⟨seg, hc, hw⟩ := h.code
  obtain ⟨seg', hc', hw'⟩ := h'.code
  refine ⟨h.entries.trans h'.entries, fun hb => h'.wellFormed (h.wellFormed hb), seg ++ seg',
    ?_, ?_⟩
  · rw [hc', hc, List.append_assoc]
  · rintro name ⟨i, hi, d, hd, rfl⟩
    rcases List.mem_append.mp hi with hi | hi
    · refine (hw d.name ⟨i, hi, d, hd, rfl⟩).imp_right ?_
      rintro ⟨hn, hm⟩
      exact ⟨hn, Table.names_subset_of_prefix h'.entries hm⟩
    · refine (hw' d.name ⟨i, hi, d, hd, rfl⟩).imp_right ?_
      rintro ⟨hn, hm⟩
      exact ⟨fun e => hn (Table.names_subset_of_prefix h.entries e), hm⟩

theorem composes : Composes (Grows free) := ⟨refl, trans⟩

theorem mono (h : Grows free b b') (hf : ∀ name, free name → free' name) : Grows free' b b' := by
  obtain ⟨seg, hc, hw⟩ := h.code
  exact ⟨h.entries, h.wellFormed, seg, hc, fun name hn => (hw name hn).imp_left (hf name)⟩

/-- A variable that was new at first need not be free afterwards. -/
theorem hide {name : String} (h : Grows free b b₁)
    (h' : Grows (fun n => n = name ∨ free n) b₁ b₂) (hn : name ∉ b.table.names)
    (hm : name ∈ b₁.table.names) : Grows free b b₂ := by
  obtain ⟨seg, hc, hw⟩ := h.code
  obtain ⟨seg', hc', hw'⟩ := h'.code
  have hsub := Table.names_subset_of_prefix h.entries
  have hsub' := Table.names_subset_of_prefix h'.entries
  refine ⟨h.entries.trans h'.entries, fun hb => h'.wellFormed (h.wellFormed hb), seg ++ seg',
    ?_, ?_⟩
  · rw [hc', hc, List.append_assoc]
  · rintro _ ⟨i, hi, d, hd, rfl⟩
    rcases List.mem_append.mp hi with hi | hi
    · exact (hw d.name ⟨i, hi, d, hd, rfl⟩).imp_right fun ⟨hn, hm⟩ => ⟨hn, hsub' hm⟩
    · rcases hw' d.name ⟨i, hi, d, hd, rfl⟩ with (e | hf) | ⟨hd₁, hd₂⟩
      · exact .inr (e ▸ ⟨hn, hsub' hm⟩)
      · exact .inl hf
      · exact .inr ⟨fun e => hd₁ (hsub e), hd₂⟩

theorem withTemp (b : Builder) (v : Value) : Grows free b (b.withTemp v) :=
  ⟨⟨_, rfl⟩, fun hb => hb.withTemp v, [], by simp, fun _ h => by simp [Writes] at h⟩

theorem takeLabel (b : Builder) : Grows free b b.takeLabel :=
  ⟨List.prefix_rfl, id, [], by simp, fun _ h => by simp [Writes] at h⟩

/-- One more instruction that writes a free name or nothing. -/
theorem push (b : Builder) {i : Instruction} (hi : ∀ d, i.destination? = some d → free d.name) :
    Grows free b (b.push i) := by
  refine ⟨List.prefix_rfl, id, [i], rfl, ?_⟩
  rintro _ ⟨i', hi', d, hd, rfl⟩
  rw [List.mem_singleton.mp hi'] at hd
  exact .inl (hi d hd)

theorem carrier (b : Builder) (l : Label) : Grows free b (b.push (.carrier l)) :=
  push b fun _ hd => absurd hd (by simp [Instruction.carrier, Instruction.destination?,
    Operands.destination?])

theorem names (h : Grows free b b') : b.table.names ⊆ b'.table.names :=
  Table.names_subset_of_prefix h.entries

theorem registers (h : Grows free b b') {g : Handle} (hg : b.table.Registers g) :
    b'.table.Registers g := hg.of_prefix h.entries

theorem code_prefix (h : Grows free b b') : b.code <+: b'.code := by
  obtain ⟨seg, hc, -⟩ := h.code
  exact ⟨seg, hc.symm⟩

end Grows
end Builder

/-! ## 3. Operators and assignments -/

namespace Lowering
open Builder

variable {free : String → Prop} {b b' : Builder}

theorem grows_append {i : Instruction} (hi : ∀ d, i.destination? = some d → free d.name) :
    Keeps (Grows free) (append i) := fun b => Grows.push b hi

/-- A conversion writes the temporary that it registers. -/
theorem grows_asReal (h : Handle) : Keeps (Grows free) (asReal h) := by
  intro b
  unfold leaves
  rw [asReal_apply]
  split
  · next hs =>
    split at hs
    · cases hs
      refine (Grows.withTemp b (.zero .real)).hide (.push _ ?_) b.table.freshName_not_mem
        (by simp)
      intro d hd
      cases hd
      exact .inl rfl
    · cases hs
      exact .refl b
  · next hs => split at hs <;> cases hs

theorem grows_matched (left right : Handle) : Keeps (Grows free) (matched left right) := by
  unfold matched
  split
  · exact Keeps.result Grows.composes (grows_asReal left) _
  · exact Keeps.result Grows.composes (grows_asReal right) _
  · exact Keeps.pure Grows.composes _

/-- The code of an operator writes its result and new variables. -/
theorem grows_apply (op : Operator) (result left right : Handle)
    (hr : free result.name) : Keeps (Grows free) (apply op result left right) := by
  have two : ∀ {o : Opcode} {source : Handle} (fits), Keeps (Grows free)
      (append ⟨o, .two result source, none, fits⟩) := by
    intro o source fits
    refine grows_append ?_
    rintro d ⟨⟩
    exact hr
  have three : ∀ {o : Opcode} {left right : Handle} (fits), Keeps (Grows free)
      (append ⟨o, .three result left right, none, fits⟩) := by
    intro o left right fits
    refine grows_append ?_
    rintro d ⟨⟩
    exact hr
  cases op with
  | comparison c =>
    rw [apply_comparison]
    refine Keeps.bind Grows.composes (grows_matched left right) fun p => ?_
    cases hn : Numeric.ofKind? p.1.kind with
    | some n =>
      rw [compared_of_some hn]
      exact three rfl
    | none =>
      rw [compared_of_none hn]
      exact Keeps.throw Grows.composes _
  | arithmetic a =>
    refine Keeps.bind Grows.composes (grows_matched left right) ?_
    rintro ⟨left, right⟩
    exact Keeps.bind Grows.composes (two rfl) fun _ => two rfl
  | realDivision =>
    refine Keeps.bind Grows.composes (grows_asReal left) fun _ => ?_
    exact Keeps.bind Grows.composes (grows_asReal right) fun _ => three rfl
  | wholeDivision d => cases d <;> exact three rfl
  | logical c => exact three rfl

theorem grows_copy {target : Handle} (source : Handle) (ht : free target.name) :
    Keeps (Grows free) (copy target source) := by
  have two : ∀ {o : Opcode} (fits), Keeps (Grows free)
      (append ⟨o, .two target source, none, fits⟩) := by
    intro o fits
    refine grows_append ?_
    rintro d ⟨⟩
    exact ht
  unfold copy
  split <;> first | exact two rfl | exact Keeps.throw Grows.composes _

/-- The instruction of a negation writes the temporary that was registered for it. -/
theorem negated_grows (source : Handle) (b : Builder) :
    Grows free b ((b.withTemp (.zero .boolean)).push
      ⟨.negate, .two ⟨b.freshName, .boolean⟩ source, none, rfl⟩) := by
  refine (Grows.withTemp b (.zero .boolean)).hide (.push _ ?_) b.table.freshName_not_mem (by simp)
  rintro d ⟨⟩
  exact .inl rfl

/-- The temporary of an operator is new, so only variables from before stay what they were. -/
theorem combined_grows {op : Operator} {k : Kind} {left right : Handle} {r : Option Handle}
    (h : combined op (some k) left right b = .ok r b') : Grows free b b' := by
  obtain ⟨-, h⟩ := combined_eq_ok_iff.mp h
  have hop : Keeps (Grows fun n => n = b.freshName ∨ free n)
      (apply op ⟨b.freshName, k⟩ left right) := grows_apply op _ left right (.inl rfl)
  exact (Grows.withTemp b (.zero k)).hide (hop.of_ok h) b.table.freshName_not_mem
    (by simp [freshName])

/-- The temporary of an operator is registered. -/
theorem combined_registers {op : Operator} {k : Kind} {left right : Handle} {r : Option Handle}
    (h : combined op (some k) left right b = .ok r b') :
    r = some ⟨b.freshName, k⟩ ∧ b'.table.Registers ⟨b.freshName, k⟩ := by
  obtain ⟨hresult, happ⟩ := combined_eq_ok_iff.mp h
  have hop : Keeps (Grows fun _ => True) (apply op ⟨b.freshName, k⟩ left right) :=
    grows_apply op _ left right trivial
  have hr := Table.registers_withTemp b.table (.zero k)
  rw [Value.kind_zero] at hr
  exact ⟨hresult, (hop.of_ok happ).registers hr⟩

end Lowering

/-! ## 4. Trees -/

namespace Tree
open Lowering Builder

/-- **Lowering grows the builder.**  Besides new variables it writes those that the tree assigns
to. -/
theorem lower_grows {free : String → Prop} (t : Tree) : ∀ {b b' : Builder} {r : Option Handle},
    (∀ h ∈ t.targets, free h.name) → t.lower .structured b = .ok r b' → Grows free b b' := by
  have sub : ∀ {c t : Tree}, c ∈ t.children → (∀ h ∈ t.targets, free h.name) →
      ∀ h ∈ c.targets, free h.name := fun hc hs h hh => hs h (targets_subset_of_child hc hh)
  have jump : ∀ {b : Builder} {i : Instruction}, i.destination? = none → Grows free b (b.push i) :=
    fun {b i} hi => .push b fun _ hd => absurd (hi.symm.trans hd) (by simp)
  induction t using Tree.ind with
  | constant v =>
    intro b b' r _ h
    obtain ⟨-, rfl⟩ := lower_constant_iff.mp h
    exact .withTemp b v
  | reference g =>
    intro b b' r _ h
    obtain ⟨_, -, -, rfl⟩ := lower_reference_iff.mp h
    exact .refl b'
  | negation a iha =>
    intro b b' r hf h
    obtain ⟨source, b₁, ha, -, rfl⟩ := lower_negation_iff.mp h
    exact (iha (sub (by simp [children]) hf) ha).trans (negated_grows source b₁)
  | binary op a₁ a₂ ih₁ ih₂ =>
    intro b b' r hf h
    obtain ⟨left, b₁, h₁, right, b₂, h₂, h⟩ := lower_binary_iff.mp h
    obtain ⟨k, hk⟩ := Option.ne_none_iff_exists'.mp
      (Operator.resultTy_ne_none op a₁.staticType a₂.staticType)
    rw [hk] at h
    exact ((ih₁ (sub (by simp [children]) hf) h₁).trans
      (ih₂ (sub (by simp [children]) hf) h₂)).trans (combined_grows h)
  | assign g a iha =>
    intro b b' r hf h
    obtain ⟨source, b₁, ha, hc, -⟩ := lower_assign_iff.mp h
    exact (iha (sub (by simp [children]) hf) ha).trans
      ((grows_copy source (hf g (target_mem_targets g a))).of_ok hc)
  | write a n iha =>
    intro b b' r hf h
    obtain ⟨source, b₁, ha, -, rfl⟩ := lower_write_iff.mp h
    exact (iha (sub (by simp [children]) hf) ha).trans (jump (by cases n <;> rfl))
  | choice c a ihc iha =>
    intro b b' r hf h
    obtain ⟨condition, b₁, hc, r₂, b₂, ha, -, rfl⟩ := lower_choice_iff.mp h
    have hc := ihc (sub (by simp [children]) hf) hc
    have ha := iha (sub (by simp [children]) hf) ha
    exact (((hc.trans (.takeLabel b₁)).trans (jump rfl)).trans ha).trans (.carrier b₂ _)
  | choiceElse c a₁ a₂ ihc ih₁ ih₂ =>
    intro b b' r hf h
    obtain ⟨condition, b₁, hc, r₂, b₂, h₁, r₃, b₃, h₂, -, rfl⟩ := lower_choiceElse_iff.mp h
    have hc := ihc (sub (by simp [children]) hf) hc
    have h₁ := ih₁ (sub (by simp [children]) hf) h₁
    have h₂ := ih₂ (sub (by simp [children]) hf) h₂
    have hyes := (((hc.trans (.takeLabel b₁)).trans (.takeLabel _)).trans (jump rfl)).trans h₁
    exact (((hyes.trans (jump rfl)).trans (.carrier _ _)).trans h₂).trans (.carrier b₃ _)
  | loop c a ihc iha =>
    intro b b' r hf h
    obtain ⟨condition, b₁, hc, r₂, b₂, ha, -, rfl⟩ := lower_loop_iff.mp h
    have hc := ihc (sub (by simp [children]) hf) hc
    have ha := iha (sub (by simp [children]) hf) ha
    have hhead := (((Grows.takeLabel b).trans (.takeLabel _)).trans (.carrier _ b.label)).trans hc
    exact (((hhead.trans (jump rfl)).trans ha).trans (jump rfl)).trans (.carrier _ _)
  | block ts ih =>
    intro b b' r hf h
    obtain ⟨hall, -⟩ := lower_block_iff.mp h
    exact lowerAll_composes Grows.composes
      (fun t ht => ih t ht (sub (t := .block ts) ht hf)) hall

/-- **The result of lowering is registered**, and its kind is the static type of the tree. -/
theorem registers_of_lower {t : Tree} {b b' : Builder} {h : Handle}
    (hr : t.RegisteredIn b.table) (hl : t.lower .structured b = .ok (some h) b') :
    b'.table.Registers h ∧ some h.kind = t.staticType := by
  cases t with
  | constant v =>
    obtain ⟨hh, rfl⟩ := lower_constant_iff.mp hl
    cases hh
    exact ⟨b.table.registers_withTemp v, rfl⟩
  | reference g =>
    obtain ⟨g', hg, hh, rfl⟩ := lower_reference_iff.mp hl
    cases hh
    obtain rfl : g = h := Except.ok.inj ((hr g (reference_mem_handles g)).symm.trans hg)
    exact ⟨hg, rfl⟩
  | negation a =>
    obtain ⟨source, b₁, -, hh, rfl⟩ := lower_negation_iff.mp hl
    cases hh
    exact ⟨b₁.table.registers_withTemp (.zero .boolean), rfl⟩
  | binary op a₁ a₂ =>
    obtain ⟨left, b₁, -, right, b₂, -, hc⟩ := lower_binary_iff.mp hl
    obtain ⟨k, hk⟩ := Option.ne_none_iff_exists'.mp
      (Operator.resultTy_ne_none op a₁.staticType a₂.staticType)
    rw [hk] at hc
    obtain ⟨hh, hreg⟩ := combined_registers hc
    cases hh
    exact ⟨hreg, hk.symm⟩
  | assign g a =>
    obtain ⟨_, _, -, -, hh⟩ := lower_assign_iff.mp hl
    cases hh
  | write a n =>
    obtain ⟨_, _, -, hh, -⟩ := lower_write_iff.mp hl
    cases hh
  | choice c a =>
    obtain ⟨_, _, -, _, _, -, hh, -⟩ := lower_choice_iff.mp hl
    cases hh
  | choiceElse c a₁ a₂ =>
    obtain ⟨_, _, -, _, _, -, _, _, -, hh, -⟩ := lower_choiceElse_iff.mp hl
    cases hh
  | loop c a =>
    obtain ⟨_, _, -, _, _, -, hh, -⟩ := lower_loop_iff.mp hl
    cases hh
  | block ts =>
    obtain ⟨-, hh⟩ := lower_block_iff.mp hl
    cases hh

end Tree
end ProcTree
