/-
# Following the additions through lowering

What was added to a builder is followed through lowering step by step, in both layouts, on any tree
and however it ends.

* `Tracks`: from a builder with these additions the computation comes to one with more, whether it
  succeeds or fails, and a result goes with what was added by then.
* `Lowering.tracks_combined`: an operator reads its operands, fills what it converts, and fills its
  result.
* `Tree.lower_tracks`: lowering is tracked.  A tree that gives a variable has added straight code
  only, and the variable can be read behind it.
-/
import ProcTree.Proofs.Lowering.Additions

namespace ProcTree

variable {start : Builder} {whole : Tree} {r r₁ r₂ : Additions} {α β : Type}

/-! ## 1. Computations -/

/-- From every builder that is the first one with these additions, the computation comes to one
with others, and a result has the property with these. -/
def Tracks (start : Builder) (whole : Tree) (Q : α → Additions → Prop) (x : Lowering α)
    (r : Additions) : Prop :=
  ∀ b, r.Describe start whole b → ∃ r', r'.Describe start whole (leaves x b) ∧
    ∀ a b', x b = .ok a b' → Q a r'

namespace Tracks

variable {Q Q' : α → Additions → Prop} {x : Lowering α}

theorem pure {a : α} (h : Q a r) : Tracks start whole Q (Pure.pure a : Lowering α) r := by
  intro b hb
  refine ⟨r, hb, ?_⟩
  rintro _ _ ⟨⟩
  exact h

theorem fail (e : Error) : Tracks start whole Q (Lowering.fail e : Lowering α) r := by
  intro b hb
  refine ⟨r, hb, ?_⟩
  rintro _ _ ⟨⟩

theorem mono (hx : Tracks start whole Q x r) (h : ∀ a r', Q a r' → Q' a r') :
    Tracks start whole Q' x r := by
  intro b hb
  obtain ⟨r', hb', hQ⟩ := hx b hb
  exact ⟨r', hb', fun a b' ha => h a r' (hQ a b' ha)⟩

/-- **A sequence is tracked** from part to part. -/
theorem bind {f : α → Lowering β} {Q' : β → Additions → Prop} (hx : Tracks start whole Q x r)
    (hf : ∀ a r', Q a r' → Tracks start whole Q' (f a) r') :
    Tracks start whole Q' (x >>= f) r := by
  intro b hb
  obtain ⟨r₁, hb₁, hQ⟩ := hx b hb
  cases hs : x b with
  | ok a b₁ =>
    rw [leaves_of_ok hs] at hb₁
    obtain ⟨r₂, hb₂, hQ'⟩ := hf a r₁ (hQ a b₁ hs) b₁ hb₁
    have hsame : (x >>= f) b = f a b₁ := bind_of_ok hs
    refine ⟨r₂, ?_, fun c b' hc => hQ' c b' (hsame ▸ hc)⟩
    rwa [leaves, hsame]
  | error e b₁ =>
    rw [leaves_of_error hs] at hb₁
    have hsame : (x >>= f) b = .error e b₁ := bind_of_error hs
    refine ⟨r₁, leaves_of_error hsame ▸ hb₁, fun c b' hc => ?_⟩
    exact absurd (hsame.symm.trans hc) (by simp)

theorem discard (hx : Tracks start whole Q x r) :
    Tracks start whole (fun _ r' => ∃ a, Q a r') (Functor.discard x) r :=
  hx.bind fun a _ ha => pure ⟨a, ha⟩

end Tracks

namespace Lowering
open Additions

variable {left right result source : Handle}

/-! ## 2. Single steps -/

/-- An instruction where it is admitted. -/
theorem tracks_append {i : Instruction} (hi : r.Admits start whole r.code i) :
    Tracks start whole (fun _ r' => r' = r.push i) (append i) r := by
  intro b hb
  refine ⟨r.push i, hb.push hi, ?_⟩
  rintro _ _ ⟨⟩
  rfl

/-- An instruction that neither reads nor writes. -/
theorem tracks_mark {i : Instruction} (hd : i.destination? = none) (hs : i.sources = []) :
    Tracks start whole (fun _ r' => r.Follows [] r') (append i) r := by
  refine (tracks_append ⟨by simp [hd], by simp [hs], fun n a ho => ?_⟩).mono ?_
  · -- An instruction that accumulates has two operands, and it reads the second one.
    obtain ⟨o, os, l, fits⟩ := i
    obtain rfl : o = _ := ho
    cases os with
    | two d s => exact absurd hs (by simp [Instruction.sources, Operands.sources])
    | _ => exact absurd fits (by simp [Operands.shape, Opcode.shape])
  · rintro _ _ rfl
    exact .push r i

theorem tracks_newLabel :
    Tracks start whole (fun _ r' => r' = r.takeLabel) newLabel r := by
  intro b hb
  refine ⟨r.takeLabel, hb.takeLabel, ?_⟩
  rintro _ _ ⟨⟩
  rfl

/-- The temporary of a result, which nothing has filled so far. -/
theorem tracks_temp (k : Kind) :
    Tracks start whole (fun h r' => ∃ v, v.handle = h ∧ h.kind = k ∧ r' = r.withResult v)
      (temp (some k)) r := by
  intro b hb
  rw [leaves_of_ok (temp_some k b)]
  refine ⟨_, hb.withResult k, ?_⟩
  intro h b' hh
  obtain ⟨rfl, -⟩ : ⟨b.freshName, k⟩ = h ∧ _ := by
    simpa using (temp_some k b).symm.trans hh
  exact ⟨_, rfl, rfl, rfl⟩

/-- The temporary of a constant of the tree. -/
theorem tracks_tempOf {v : Value} (hv : v ∈ whole.constants) :
    Tracks start whole (fun h r' => ∃ w, w.handle = h ∧ w.value = v ∧ r' = r.withConstant w)
      (tempOf v) r := by
  intro b hb
  rw [leaves_of_ok (tempOf_apply v b)]
  refine ⟨_, hb.withConstant hv, ?_⟩
  intro h b' hh
  obtain ⟨rfl, -⟩ : ⟨b.freshName, v.kind⟩ = h ∧ _ := by
    simpa using (tempOf_apply v b).symm.trans hh
  exact ⟨_, rfl, rfl, rfl⟩

/-- A variable that is looked up can be read: it was there at the start, or it is a temporary that
holds a constant or was written. -/
theorem tracks_lookup (hs : r.Settled) {name : String}
    (hn : name ∈ whole.handles.map Handle.name) :
    Tracks start whole (fun h r' => r' = r ∧ r.Offers start whole r.code h) (lookup name) r := by
  intro b hb
  cases hl : b.table.lookup name with
  | error e =>
    rw [leaves_of_error (lookup_of_error hl)]
    refine ⟨r, hb, fun h b' hh => ?_⟩
    exact absurd ((lookup_of_error hl).symm.trans hh) (by simp)
  | ok g =>
    rw [leaves_of_ok (lookup_of_ok hl)]
    refine ⟨r, hb, fun h b' hh => ?_⟩
    obtain ⟨rfl, -⟩ : g = h ∧ _ := by simpa using (lookup_of_ok hl).symm.trans hh
    refine ⟨rfl, ?_⟩
    obtain ⟨v, hv, rfl⟩ := Table.lookup_eq_ok_iff.mp hl
    have hname : v.handle.name = name := Table.name_of_find? hv
    obtain ⟨new, hgains, hperm⟩ := hb.table
    have hmem := Table.mem_of_find? hv
    rw [hgains.entries] at hmem
    rcases List.mem_append.mp hmem with hold | hnew
    · exact .inl (List.mem_map_of_mem hold)
    · rcases List.mem_append.mp (hperm.mem_iff.mp hnew) with hc | hr
      · exact .inr (.inl (List.mem_map_of_mem hc))
      · exact .inr (.inr (.inr ⟨hname ▸ hn, hs v hr⟩))

/-! ## 3. Operators on variables that can be read -/

/-- What an operator leaves that has filled its result. -/
def Filled (result : Handle) (r r' : Additions) : Prop :=
  r.Runs [] r' ∧ Provides r'.code result

/-- One instruction that fills a result. -/
theorem tracks_fill {i : Instruction} (hd : i.destination? = some result)
    (hresult : result ∈ r.results.map Variable.handle)
    (hs : ∀ s ∈ i.sources, r.Offers start whole r.code s)
    (ho : ∀ n a, i.opcode ≠ .accumulate n a) (hi : i.Straight) :
    Tracks start whole (fun _ r' => r' = r.push i ∧ Filled result r r') (append i) r := by
  refine (tracks_append ⟨?_, hs, fun n a h => absurd h (ho n a)⟩).mono ?_
  · intro d h
    obtain rfl := Option.some.inj (hd.symm.trans h)
    exact .inl hresult
  · rintro _ _ rfl
    exact ⟨rfl, .push r ⟨hi, result, hd⟩, .last hd⟩

theorem tracks_three {o : Opcode} {fits} (hresult : result ∈ r.results.map Variable.handle)
    (hl : r.Offers start whole r.code left) (hr : r.Offers start whole r.code right)
    (ho : ∀ n a, o ≠ .accumulate n a) :
    Tracks start whole (fun _ r' => Filled result r r')
      (append ⟨o, .three result left right, none, fits⟩) r := by
  refine (tracks_fill rfl hresult ?_ ho ⟨rfl, rfl⟩).mono fun _ _ h => h.2
  simp only [Instruction.sources, Operands.sources, List.forall_mem_cons]
  exact ⟨hl, hr, by simp⟩

/-- One instruction that fills a result from one variable. -/
theorem tracks_two {o : Opcode} {fits} (hresult : result ∈ r.results.map Variable.handle)
    (hs : r.Offers start whole r.code source) (ho : ∀ n a, o ≠ .accumulate n a) :
    Tracks start whole
      (fun _ r' => r' = r.push ⟨o, .two result source, none, fits⟩ ∧ Filled result r r')
      (append ⟨o, .two result source, none, fits⟩) r := by
  refine tracks_fill rfl hresult ?_ ho ⟨rfl, rfl⟩
  simpa only [Instruction.sources, Operands.sources, List.forall_mem_singleton] using hs

/-- A conversion fills a temporary of its own. -/
theorem tracks_asReal (hl : r.Offers start whole r.code left) :
    Tracks start whole (fun h r' => r.Runs [] r' ∧ r'.Offers start whole r'.code h)
      (asReal left) r := by
  unfold asReal
  split
  · refine .bind (tracks_temp .real) ?_
    rintro _ _ ⟨v, rfl, -, rfl⟩
    have hv : v.handle ∈ (r.withResult v).results.map Variable.handle := by
      simp [Additions.withResult]
    have hl' : (r.withResult v).Offers start whole (r.withResult v).code left :=
      hl.mono (List.Subset.refl _)
    refine .bind (tracks_two hv hl' (by simp)) ?_
    rintro _ r' ⟨-, hrun, hprovides⟩
    exact .pure ⟨hrun.withResult hprovides, .of_provides hprovides⟩
  · exact .pure ⟨.refl r, hl⟩

theorem tracks_matched (hl : r.Offers start whole r.code left)
    (hr : r.Offers start whole r.code right) :
    Tracks start whole (fun p r' => r.Runs [] r' ∧ r'.Offers start whole r'.code p.1 ∧
      r'.Offers start whole r'.code p.2) (matched left right) r := by
  unfold matched
  split
  · refine .bind (tracks_asReal hl) fun h r' hh => .pure ⟨hh.1, hh.2, hr.runs hh.1⟩
  · refine .bind (tracks_asReal hr) fun h r' hh => .pure ⟨hh.1, hl.runs hh.1, hh.2⟩
  · exact .pure ⟨.refl r, hl, hr⟩

/-- Something is copied into the result, and something else is combined into it. -/
theorem tracks_accumulated (n : Numeric) (a : Arithmetic)
    (hresult : result ∈ r.results.map Variable.handle)
    (hl : r.Offers start whole r.code left) (hr : r.Offers start whole r.code right) :
    Tracks start whole (fun _ r' => Filled result r r') (do
      emit (.copy n) (.two result left)
      emit (.accumulate n a) (.two result right)) r := by
  refine .bind (tracks_two hresult hl (by simp)) ?_
  rintro _ r₁ ⟨rfl, hrun, -⟩
  refine (tracks_append ⟨?_, ?_, ?_⟩).mono ?_
  · rintro d ⟨⟩
    exact .inl hresult
  · simpa only [Instruction.sources, Operands.sources, List.forall_mem_singleton] using hr.runs hrun
  · rintro _ _ ⟨⟩
    exact ⟨r.code, _, rfl, rfl, rfl⟩
  · rintro _ _ rfl
    exact ⟨hrun.trans (.push _ ⟨⟨rfl, rfl⟩, result, rfl⟩), .last rfl⟩

/-- **The code of an operator** fills the result and what it converts. -/
theorem tracks_apply (op : Operator) (hresult : result ∈ r.results.map Variable.handle)
    (hl : r.Offers start whole r.code left) (hr : r.Offers start whole r.code right) :
    Tracks start whole (fun _ r' => Filled result r r') (apply op result left right) r := by
  have before : ∀ {r₁ r' : Additions}, r.Runs [] r₁ → Filled result r₁ r' → Filled result r r' :=
    fun hrun hf => ⟨hrun.trans hf.1, hf.2⟩
  have keep : ∀ {r₁ : Additions}, r.Runs [] r₁ → result ∈ r₁.results.map Variable.handle :=
    fun hrun => List.map_subset _ hrun.results hresult
  cases op with
  | comparison c =>
    rw [apply_comparison]
    refine .bind (tracks_matched hl hr) fun p r₁ hp => ?_
    cases hn : Numeric.ofKind? p.1.kind with
    | some n =>
      rw [compared_of_some hn]
      exact (tracks_three (keep hp.1) hp.2.1 hp.2.2 (by simp)).mono fun _ _ => before hp.1
    | none =>
      rw [compared_of_none hn]
      exact .fail _
  | arithmetic a =>
    refine .bind (tracks_matched hl hr) fun p r₁ hp => ?_
    exact (tracks_accumulated _ a (keep hp.1) hp.2.1 hp.2.2).mono fun _ _ => before hp.1
  | realDivision =>
    refine .bind (tracks_asReal hl) fun left' r₁ hleft => ?_
    refine .bind (tracks_asReal (hr.runs hleft.1)) fun right' r₂ hright => ?_
    have hrun : r.Runs [] r₂ := hleft.1.trans hright.1
    exact (tracks_three (keep hrun) (hleft.2.runs hright.1) hright.2 (by simp)).mono
      fun _ _ => before hrun
  | wholeDivision d => cases d <;> exact tracks_three hresult hl hr (by simp)
  | logical c => exact tracks_three hresult hl hr (by simp)

/-- A variable that straight code has made ready. -/
def Ready (start : Builder) (whole : Tree) (literals : List Value) (r : Additions)
    (a : Option Handle) (r' : Additions) : Prop :=
  ∃ h, a = some h ∧ r.Runs literals r' ∧ r'.Offers start whole r'.code h

theorem tracks_negated (hs : r.Offers start whole r.code source) :
    Tracks start whole (Ready start whole [] r) (negated source) r := by
  refine .bind (tracks_temp .boolean) ?_
  rintro _ _ ⟨v, rfl, -, rfl⟩
  have hv : v.handle ∈ (r.withResult v).results.map Variable.handle := by
    simp [Additions.withResult]
  refine .bind (tracks_two hv (hs.mono (List.Subset.refl _)) (by simp)) ?_
  rintro _ r' ⟨-, hrun, hprovides⟩
  exact .pure ⟨_, rfl, hrun.withResult hprovides, .of_provides hprovides⟩

theorem tracks_combined (op : Operator) (s t : Ty) (hl : r.Offers start whole r.code left)
    (hr : r.Offers start whole r.code right) :
    Tracks start whole (Ready start whole [] r) (combined op (op.resultTy s t) left right) r := by
  obtain ⟨k, hk⟩ := Option.ne_none_iff_exists'.mp (Operator.resultTy_ne_none op s t)
  rw [hk]
  refine .bind (tracks_temp k) ?_
  rintro _ _ ⟨v, rfl, -, rfl⟩
  have hv : v.handle ∈ (r.withResult v).results.map Variable.handle := by
    simp [Additions.withResult]
  have hc : r.constants ⊆ (r.withResult v).constants := List.Subset.refl _
  refine .bind (tracks_apply op hv (hl.mono hc) (hr.mono hc)) ?_
  rintro _ r' ⟨hrun, hprovides⟩
  exact .pure ⟨_, rfl, hrun.withResult hprovides, .of_provides hprovides⟩

/-- An assignment writes its target. -/
theorem tracks_copy {target : Handle} (ht : target ∈ whole.targets)
    (hs : r.Offers start whole r.code source) :
    Tracks start whole (fun _ r' => r.Follows [] r') (copy target source) r := by
  have two : ∀ {o : Opcode} {fits}, (∀ n a, o ≠ .accumulate n a) →
      Tracks start whole (fun _ r' => r.Follows [] r')
        (append ⟨o, .two target source, none, fits⟩) r := by
    intro o fits ho
    refine (tracks_append ⟨?_, ?_, fun n a h => absurd h (ho n a)⟩).mono ?_
    · rintro d ⟨⟩
      exact .inr ht
    · simpa only [Instruction.sources, Operands.sources, List.forall_mem_singleton] using hs
    · rintro _ _ rfl
      exact .push r _
  unfold copy
  split <;> first
    | exact two (by simp)
    | exact .fail _

end Lowering

/-! ## 4. Trees -/

namespace Tree
open Lowering Additions

variable {layout : ChoiceLayout} {c a a₁ a₂ : Tree} {literals us vs ws : List Value}

/-- What lowering a tree leaves: the temporaries of its constants were registered, and if the tree
gives a variable, then straight code has made it ready. -/
def Leaves (start : Builder) (whole : Tree) (literals : List Value) (r : Additions)
    (a : Option Handle) (r' : Additions) : Prop :=
  r.Follows literals r' ∧ ∀ h, a = some h → r.Runs literals r' ∧ r'.Offers start whole r'.code h

theorem leaves_of_ready {a : Option Handle} (hr : r.Runs literals r₁)
    (h : Ready start whole ws r₁ a r₂) : Leaves start whole (literals ++ ws) r a r₂ := by
  obtain ⟨h, rfl, hrun, ho⟩ := h
  refine ⟨hr.toFollows.trans hrun.toFollows, ?_⟩
  rintro _ ⟨⟩
  exact ⟨hr.trans hrun, ho⟩

/-- An operand, and then what is done with its variable. -/
theorem tracks_operand {x : Lowering (Option Handle)} {construct : String}
    {rest : Handle → Lowering β} {Q : β → Additions → Prop}
    (hx : Tracks start whole (Leaves start whole literals r) x r)
    (hrest : ∀ h r₁, r.Runs literals r₁ → r₁.Offers start whole r₁.code h →
      Tracks start whole Q (rest h) r₁) :
    Tracks start whole Q (x >>= fun a => needed construct a >>= rest) r := by
  refine .bind hx fun a r₁ ha => ?_
  cases a with
  | none => exact .bind (.fail _) fun _ _ h => h
  | some h => exact hrest h r₁ (ha.2 h rfl).1 (ha.2 h rfl).2

/-- One step of a statement, and then the others. -/
theorem tracks_step {x : Lowering α} {rest : α → Lowering β} {Q : β → Additions → Prop}
    (hf : r.Follows literals r₁) (hx : Tracks start whole (fun _ r' => r₁.Follows [] r') x r₁)
    (hrest : ∀ a r₂, r.Follows literals r₂ → Tracks start whole Q (rest a) r₂) :
    Tracks start whole Q (x >>= rest) r₁ :=
  .bind hx fun a r₂ h => hrest a r₂ (by simpa using hf.trans h)

/-- A tree inside a statement, and then the rest of it. -/
theorem tracks_part {x : Lowering (Option Handle)} {rest : PUnit → Lowering β}
    {Q : β → Additions → Prop} (hf : r.Follows literals r₁)
    (hx : Tracks start whole (Leaves start whole ws r₁) x r₁)
    (hrest : ∀ r₂, r.Follows (literals ++ ws) r₂ → Tracks start whole Q (rest ⟨⟩) r₂) :
    Tracks start whole Q (discard x >>= rest) r₁ :=
  .bind hx.discard fun _ r₂ ⟨_, h⟩ => hrest r₂ (hf.trans h.1)

/-- The end of a statement, which gives no variable. -/
theorem tracks_none (hf : r.Follows literals r₁) :
    Tracks start whole (Leaves start whole literals r) (pure none) r₁ :=
  .pure ⟨hf, fun _ e => absurd e (by simp)⟩

/-- A label is taken, and then the rest of a statement. -/
theorem tracks_label {rest : Label → Lowering β} {Q : β → Additions → Prop}
    (hf : r.Follows literals r₁)
    (hrest : ∀ l, r.Follows literals r₁.takeLabel → Tracks start whole Q (rest l) r₁.takeLabel) :
    Tracks start whole Q (newLabel >>= rest) r₁ := by
  refine .bind tracks_newLabel ?_
  rintro l _ rfl
  exact hrest l (by simpa using hf.trans (.takeLabel r₁))

/-- An instruction that reads one variable and writes none. -/
theorem tracks_reading {i : Instruction} {h : Handle} (hd : i.destination? = none)
    (hs : i.sources = [h]) (ho : ∀ n a, i.opcode ≠ .accumulate n a)
    (hh : r.Offers start whole r.code h) :
    Tracks start whole (fun _ r' => r.Follows [] r') (append i) r := by
  refine (tracks_append ⟨by simp [hd], ?_, fun n a e => absurd e (ho n a)⟩).mono ?_
  · rw [hs]
    simpa using hh
  · rintro _ _ rfl
    exact .push r i

theorem tracks_writing (newline : Bool) {source : Handle}
    (hs : r.Offers start whole r.code source) :
    Tracks start whole (fun _ r' => r.Follows [] r') (append (writing newline source)) r := by
  cases newline <;> exact tracks_reading rfl rfl (by simp [writing]) hs

theorem tracks_leaving {condition : Handle} (l : Label)
    (hc : r.Offers start whole r.code condition) :
    Tracks start whole (fun _ r' => r.Follows [] r') (append (leaving condition l)) r :=
  tracks_reading rfl rfl (by simp [leaving]) hc

theorem tracks_jumping (l : Label) :
    Tracks start whole (fun _ r' => r.Follows [] r') (append (jumping l)) r :=
  tracks_mark rfl rfl

theorem tracks_attach (l : Label) :
    Tracks start whole (fun _ r' => r.Follows [] r') (attach l) r := tracks_mark rfl rfl

/-! ## 5. Statements -/

/-- Wherever every result was written, lowering the tree is tracked. -/
def Tracked (start : Builder) (whole : Tree) (layout : ChoiceLayout) (literals : List Value)
    (t : Tree) : Prop :=
  ∀ r : Additions, r.Settled →
    Tracks start whole (Leaves start whole literals r) (t.lower layout) r

/-- The label of a false condition, if there is one. -/
theorem tracks_landing (l : Label) :
    Tracks start whole (fun _ r' => r.Follows [] r') (landing layout l) r := by
  unfold landing
  split
  · exact tracks_attach l
  · exact .pure (.refl r)

/-- The other branch of a choice, or nothing. -/
theorem tracks_otherBranch (l : Label) (hr : r.Settled)
    (h : layout = .structured → Tracked start whole layout us a)
    (hus : layout ≠ .structured → us = []) :
    Tracks start whole (fun _ r' => r.Follows us r') (otherBranch layout l a) r := by
  unfold otherBranch
  split
  case isTrue hl =>
    refine tracks_step (.refl r) (tracks_attach l) fun _ r₁ h₁ => ?_
    exact (h hl r₁ (h₁.settled hr)).discard.mono fun _ r₂ ⟨_, h₂⟩ => h₁.trans h₂.1
  case isFalse hl =>
    rw [hus hl]
    exact .pure (.refl r)

theorem tracks_choice (hc : Tracked start whole layout us c)
    (ha : Tracked start whole layout vs a) :
    Tracked start whole layout (us ++ vs) (.choice c a) := by
  intro r hr
  rw [lower_choice_layout]
  refine tracks_operand (hc r hr) fun condition r₁ h₁ hcond => ?_
  refine tracks_label h₁.toFollows fun otherwise h₂ => ?_
  refine tracks_step h₂ (tracks_leaving _ (hcond.mono (List.Subset.refl _))) fun _ r₃ h₃ => ?_
  refine tracks_part h₃ (ha r₃ (h₃.settled hr)) fun r₄ h₄ => ?_
  exact tracks_step h₄ (tracks_landing otherwise) fun _ r₅ h₅ => tracks_none h₅

theorem tracks_choiceElse (hc : Tracked start whole layout us c)
    (h₁ : Tracked start whole layout vs a₁)
    (h₂ : layout = .structured → Tracked start whole layout ws a₂)
    (hws : layout ≠ .structured → ws = []) :
    Tracked start whole layout (us ++ (vs ++ ws)) (.choiceElse c a₁ a₂) := by
  intro r hr
  rw [lower_choiceElse_layout, ← List.append_assoc]
  refine tracks_operand (hc r hr) fun condition r₁ hrun hcond => ?_
  refine tracks_label hrun.toFollows fun otherwise hf => tracks_label hf fun done hf => ?_
  refine tracks_step hf (tracks_leaving _ (hcond.mono (List.Subset.refl _))) fun _ r₂ hf => ?_
  refine tracks_part hf (h₁ r₂ (hf.settled hr)) fun r₃ hf => ?_
  refine tracks_step hf (tracks_jumping done) fun _ r₄ hf => ?_
  refine .bind (tracks_otherBranch otherwise (hf.settled hr) h₂ hws) fun _ r₅ hf' => ?_
  exact tracks_step (hf.trans hf') (tracks_attach done) fun _ r₆ hf => tracks_none hf

theorem tracks_loop (hc : Tracked start whole layout us c)
    (ha : Tracked start whole layout vs a) :
    Tracked start whole layout (us ++ vs) (.loop c a) := by
  intro r hr
  rw [lower_loop]
  refine tracks_label (.refl r) fun begin hf => tracks_label hf fun done hf => ?_
  refine tracks_step hf (tracks_attach begin) fun _ r₁ hf₁ => ?_
  refine tracks_operand (hc r₁ (hf₁.settled hr)) fun condition r₂ hrun hcond => ?_
  have hf₂ : r.Follows us r₂ := hf₁.trans hrun.toFollows
  refine tracks_step hf₂ (tracks_leaving _ hcond) fun _ r₃ hf₃ => ?_
  refine tracks_part hf₃ (ha r₃ (hf₃.settled hr)) fun r₄ hf₄ => ?_
  refine tracks_step hf₄ (tracks_jumping begin) fun _ r₅ hf₅ => ?_
  exact tracks_step hf₅ (tracks_attach done) fun _ r₆ hf₆ => tracks_none hf₆

/-- The statements of a block, one after the other. -/
theorem tracks_all {ts : List Tree} {literals : Tree → List Value}
    (h : ∀ t ∈ ts, Tracked start whole layout (literals t) t) : ∀ r : Additions, r.Settled →
      Tracks start whole (fun _ r' => r.Follows (ts.flatMap literals) r')
        (lowerAll layout ts) r := by
  induction ts with
  | nil => exact fun r _ => .pure (.refl r)
  | cons t ts ih =>
    intro r hr
    have hrest := ih fun u hu => h u (List.mem_cons_of_mem t hu)
    refine tracks_part (.refl r) (h t List.mem_cons_self r hr) fun r₁ h₁ => ?_
    exact (hrest r₁ (h₁.settled hr)).mono fun _ r₂ h₂ => h₁.trans h₂

/-! ## 6. Lowering -/

/-- **Lowering is tracked**, in both layouts and however it ends, from every builder in whose
additions each result was written. -/
theorem lower_tracks (layout : ChoiceLayout) (t : Tree)
    (ht : (t.lowered layout).subtrees ⊆ whole.subtrees) :
    Tracked start whole layout (t.lowered layout).constants t := by
  have sub : ∀ {u v : Tree}, v.subtrees ⊆ whole.subtrees → u ∈ v.children →
      u.subtrees ⊆ whole.subtrees := fun hv hu => List.Subset.trans (subtrees_subset_of_child hu) hv
  induction t using Tree.ind with
  | constant v =>
    intro r hr
    have hv : v ∈ whole.constants :=
      List.mem_filterMap.mpr ⟨_, ht (self_mem_subtrees _), rfl⟩
    refine .bind (tracks_tempOf hv) ?_
    rintro _ _ ⟨w, rfl, rfl, rfl⟩
    refine .pure ⟨(Runs.withConstant r w).toFollows, ?_⟩
    rintro _ ⟨⟩
    exact ⟨.withConstant r w, .inr (.inl (by simp [Additions.withConstant]))⟩
  | reference g =>
    intro r hr
    have hg : g.name ∈ whole.handles.map Handle.name :=
      List.mem_map_of_mem (List.mem_flatMap.mpr ⟨_, ht (self_mem_subtrees _), by
        simp [lowered, rootHandles]⟩)
    refine .bind (tracks_lookup hr hg) ?_
    rintro h _ ⟨rfl, ho⟩
    refine .pure ⟨.refl _, ?_⟩
    rintro _ ⟨⟩
    exact ⟨.refl _, ho⟩
  | negation a iha =>
    intro r hr
    rw [lowered] at ht ⊢
    rw [lower_negation, constants_inner rfl]
    refine tracks_operand (iha (sub ht (by simp [children])) r hr) fun source r₁ hrun hs => ?_
    exact (tracks_negated hs).mono fun _ _ h => leaves_of_ready hrun h
  | binary op a₁ a₂ ih₁ ih₂ =>
    intro r hr
    rw [lowered] at ht ⊢
    rw [lower_binary, constants_inner rfl]
    refine tracks_operand (ih₁ (sub ht (by simp [children])) r hr) fun left r₁ hrun₁ hl => ?_
    have hr₁ := hrun₁.settled hr
    refine tracks_operand (ih₂ (sub ht (by simp [children])) r₁ hr₁) fun right r₂ hrun₂ hr => ?_
    refine (tracks_combined op _ _ (hl.runs hrun₂) hr).mono fun _ _ h => ?_
    have := leaves_of_ready (hrun₁.trans hrun₂) h
    rwa [List.append_assoc] at this
  | assign g a iha =>
    intro r hr
    rw [lowered] at ht ⊢
    rw [lower, constants_inner rfl]
    refine tracks_operand (iha (sub ht (by simp [children])) r hr) fun source r₁ hrun hs => ?_
    have hg : g ∈ whole.targets :=
      List.mem_flatMap.mpr ⟨_, ht (self_mem_subtrees _), by simp [rootTargets]⟩
    refine tracks_step hrun.toFollows (tracks_copy hg hs) fun _ r₂ hf => ?_
    exact tracks_none (by simpa [children] using hf)
  | write a n iha =>
    intro r hr
    rw [lowered] at ht ⊢
    rw [lower_write, constants_inner rfl]
    refine tracks_operand (iha (sub ht (by simp [children])) r hr) fun source r₁ hrun hs => ?_
    refine tracks_step hrun.toFollows (tracks_writing n hs) fun _ r₂ hf => ?_
    exact tracks_none (by simpa [children] using hf)
  | choice c a ihc iha =>
    rw [lowered] at ht ⊢
    rw [constants_inner rfl]
    simpa [children] using
      tracks_choice (ihc (sub ht (by simp [children]))) (iha (sub ht (by simp [children])))
  | choiceElse c a₁ a₂ ihc ih₁ ih₂ =>
    rw [lowered] at ht ⊢
    rw [constants_inner rfl]
    have hleft : layout ≠ .structured →
        (if layout = .structured then a₂.lowered layout else .block []).constants = [] := by
      intro hl
      rw [if_neg hl]
      rfl
    have hright : layout = .structured → Tracked start whole layout
        (if layout = .structured then a₂.lowered layout else .block []).constants a₂ := by
      intro hl
      rw [if_pos hl] at ht ⊢
      exact ih₂ (sub ht (by simp [children]))
    simpa [children] using tracks_choiceElse (ihc (sub ht (by simp [children])))
      (ih₁ (sub ht (by simp [children]))) hright hleft
  | loop c a ihc iha =>
    rw [lowered] at ht ⊢
    rw [constants_inner rfl]
    simpa [children] using
      tracks_loop (ihc (sub ht (by simp [children]))) (iha (sub ht (by simp [children])))
  | block ts ih =>
    intro r hr
    rw [lowered, loweredAll_eq] at ht ⊢
    rw [lower, constants_inner rfl]
    have hts : ∀ t ∈ ts, Tracked start whole layout (t.lowered layout).constants t :=
      fun t hm => ih t hm (sub ht (List.mem_map_of_mem hm))
    refine .bind (tracks_all hts r hr) fun _ r₁ hf => tracks_none ?_
    simpa [children, List.flatMap_map] using hf

/-- **What lowering a tree has added**, from any builder and however it ends. -/
theorem lower_describe (layout : ChoiceLayout) (t : Tree) (b : Builder) :
    ∃ r : Additions, r.Describe b (t.lowered layout) (leaves (t.lower layout) b) ∧
      ∀ a b', t.lower layout b = .ok a b' →
        Leaves b (t.lowered layout) (t.lowered layout).constants .empty a r :=
  lower_tracks layout t (List.Subset.refl _) .empty (fun _ hv => absurd hv List.not_mem_nil) b
    (Describe.none b _)

end Tree
end ProcTree
