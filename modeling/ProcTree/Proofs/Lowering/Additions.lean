/-
# What lowering has added so far

A builder that lowering has come to is the builder it began with and what was added since: labels
taken, temporaries of constants, temporaries of results and of conversions, and code.  This file
keeps these apart (`Additions`) and says what a single step of lowering makes of them.

* `Additions.Admits`: what an instruction may write and read where it is added.  It writes a
  temporary of a result or the target of an assignment, and it reads what is there by then.
* `Additions.Describe`: the builder is the first one with these additions, and every instruction was
  admitted at its place.
* `Additions.Follows`, `Additions.Runs`: more was added, and it was straight code.
-/
import ProcTree.Proofs.Lowering.Extension
import ProcTree.Proofs.Lowering.Growth
import ProcTree.Proofs.Temporaries

namespace ProcTree

/-! ## 1. Reading and writing -/

/-- The variables that are only read: those behind the one that is written, or the only one. -/
def Operands.sources : Operands → List Handle
  | .empty | .target _ => []
  | .one s | .two _ s | .oneTarget s _ => [s]
  | .three _ l r => [l, r]

/-- The variables that the instruction only reads. -/
def Instruction.sources (i : Instruction) : List Handle := i.operands.sources

/-- The instruction carries no label and does not jump. -/
def Instruction.Straight (i : Instruction) : Prop := i.label = none ∧ i.target? = none

/-- The instruction is straight and writes a variable. -/
def Instruction.Computes (i : Instruction) : Prop := i.Straight ∧ ∃ d, i.destination? = some d

/-- The last instructions of the code are one that writes the variable and, behind it, some without
labels and jumps.  So there is no way to the end of the code that does not write the variable. -/
def Provides (code : List Instruction) (h : Handle) : Prop :=
  ∃ before i after, code = before ++ i :: after ∧ i.destination? = some h ∧
    ∀ j ∈ after, j.Straight

theorem Writes.mono {code more : List Instruction} {name : String} (h : Writes code name)
    (hc : code <+: more) : Writes more name := by
  obtain ⟨i, hi, hd⟩ := h
  exact ⟨i, hc.subset hi, hd⟩

namespace Provides

variable {code : List Instruction} {h : Handle}

theorem writes (hp : Provides code h) : Writes code h.name := by
  obtain ⟨before, i, after, rfl, hd, -⟩ := hp
  exact ⟨i, by simp, h, hd, rfl⟩

theorem last {i : Instruction} (hd : i.destination? = some h) : Provides (code ++ [i]) h :=
  ⟨code, i, [], rfl, hd, by simp⟩

/-- Straight code behind it takes nothing away. -/
theorem append (hp : Provides code h) {more : List Instruction} (hm : ∀ i ∈ more, i.Straight) :
    Provides (code ++ more) h := by
  obtain ⟨before, i, after, rfl, hd, hs⟩ := hp
  refine ⟨before, i, after ++ more, by simp, hd, fun j hj => ?_⟩
  exact (List.mem_append.mp hj).elim (hs j) (hm j)

end Provides

/-- What holds of each element and those before it holds with one element more. -/
theorem forall_split_concat {α : Type} {P : List α → α → Prop} {l : List α} {a : α}
    (h : ∀ before x after, l = before ++ x :: after → P before x) (ha : P l a) :
    ∀ before x after, l ++ [a] = before ++ x :: after → P before x := by
  intro before x after e
  rcases List.eq_nil_or_concat after with rfl | ⟨rest, y, rfl⟩
  · obtain ⟨rfl, hx⟩ := List.append_inj' e rfl
    obtain rfl := List.singleton_inj.mp hx
    exact ha
  · rw [List.concat_eq_append, ← List.cons_append, ← List.append_assoc] at e
    exact h before x rest (List.append_inj' e rfl).1

/-! ## 2. Additions -/

namespace Tree

/-- The value of a constant. -/
def literal? : Tree → Option Value
  | .constant v => some v
  | _ => none

/-- The values of the constants in a tree, from left to right. -/
def constants (t : Tree) : List Value := t.subtrees.filterMap literal?

/-- The constants are the root, if it is one, and those of the children. -/
theorem constants_eq (t : Tree) :
    t.constants = t.literal?.toList ++ t.children.flatMap constants := by
  rw [constants, subtrees_eq, List.filterMap_cons, List.filterMap_flatMap]
  cases t.literal? <;> rfl

theorem constants_inner {t : Tree} (h : t.literal? = none) :
    t.constants = t.children.flatMap constants := by
  rw [constants_eq, h]
  rfl

end Tree

/-- What was added to a builder. -/
structure Additions where
  labels : Nat
  /-- The temporaries of constants. -/
  constants : List Variable
  /-- The temporaries of results and of conversions. -/
  results : List Variable
  code : List Instruction

namespace Additions

def empty : Additions := ⟨0, [], [], []⟩

def takeLabel (r : Additions) : Additions := { r with labels := r.labels + 1 }

def withConstant (r : Additions) (v : Variable) : Additions :=
  { r with constants := r.constants ++ [v] }

def withResult (r : Additions) (v : Variable) : Additions :=
  { r with results := r.results ++ [v] }

def push (r : Additions) (i : Instruction) : Additions := { r with code := r.code ++ [i] }

section
variable (start : Builder) (whole : Tree)

/-- The variable can be read behind this code: it was there at the start, it holds a constant, or
the code provides it.  Besides, a tree may refer by name to a temporary that was obtained for an
earlier part of it, and the code has written that one. -/
def Offers (r : Additions) (before : List Instruction) (h : Handle) : Prop :=
  h.name ∈ start.table.names ∨ h ∈ r.constants.map Variable.handle ∨ Provides before h ∨
    (h.name ∈ whole.handles.map Handle.name ∧ Writes before h.name)

/-- The instruction may stand behind this code.  It writes a result or the target of an assignment,
it reads what can be read, and if it combines a variable into its first operand, then the
instruction before it has copied something there. -/
structure Admits (r : Additions) (before : List Instruction) (i : Instruction) : Prop where
  destination : ∀ d, i.destination? = some d →
    d ∈ r.results.map Variable.handle ∨ d ∈ whole.targets
  sources : ∀ s ∈ i.sources, r.Offers start whole before s
  accumulate : ∀ n a, i.opcode = .accumulate n a →
    ∃ rest j, before = rest ++ [j] ∧ j.opcode = .copy n ∧ j.destination? = i.destination?

/-- The builder is the first one with these additions, made for parts of the whole tree. -/
structure Describe (r : Additions) (b : Builder) : Prop where
  nextLabel : b.nextLabel = start.nextLabel + r.labels
  table : ∃ new, start.table.Gains new b.table ∧ new.Perm (r.constants ++ r.results)
  code : b.code = start.code ++ r.code
  literals : ∀ v ∈ r.constants, v.value ∈ whole.constants
  zeros : ∀ v ∈ r.results, v.value = .zero v.kind
  admitted : ∀ before i after, r.code = before ++ i :: after →
    r.Admits start whole before i

end

/-- Every result was written. -/
def Settled (r : Additions) : Prop := ∀ v ∈ r.results, Writes r.code v.name

/-- More was added: the temporaries of these constants, results that are written by now, and
code. -/
structure Follows (literals : List Value) (r r' : Additions) : Prop where
  constants : ∃ new, r'.constants = r.constants ++ new ∧ new.map Variable.value = literals
  results : r.results ⊆ r'.results
  settles : ∀ v ∈ r'.results, v ∈ r.results ∨ Writes r'.code v.name
  code : r.code <+: r'.code

/-- More was added, and all of the code is straight and writes variables. -/
structure Runs (literals : List Value) (r r' : Additions) : Prop
    extends Follows literals r r' where
  labels : r'.labels = r.labels
  computes : ∃ segment, r'.code = r.code ++ segment ∧ ∀ i ∈ segment, i.Computes

variable {start : Builder} {whole : Tree} {r r₁ r₂ : Additions} {b : Builder}
  {before : List Instruction} {h : Handle} {i : Instruction} {vs ws : List Value}

namespace Offers

theorem of_provides (hp : Provides before h) : r.Offers start whole before h := .inr (.inr (.inl hp))

theorem mono (ho : r.Offers start whole before h) (hc : r.constants ⊆ r₁.constants) :
    r₁.Offers start whole before h :=
  ho.imp_right (Or.imp_left fun hm => List.map_subset Variable.handle hc hm)

/-- Behind more straight code, and with more constants. -/
theorem runs (ho : r.Offers start whole r.code h) (hr : r.Runs vs r₁) :
    r₁.Offers start whole r₁.code h := by
  obtain ⟨new, hconstants, -⟩ := hr.constants
  obtain ⟨segment, hcode, hs⟩ := hr.computes
  rcases ho with hn | hm | hp | ⟨hn, hw⟩
  · exact .inl hn
  · refine .inr (.inl ?_)
    rw [hconstants, List.map_append]
    exact List.mem_append_left _ hm
  · exact .of_provides (hcode ▸ hp.append fun i hi => (hs i hi).1)
  · exact .inr (.inr (.inr ⟨hn, hw.mono hr.code⟩))

end Offers

theorem Admits.mono (ha : r.Admits start whole before i) (hc : r.constants ⊆ r₁.constants)
    (hr : r.results ⊆ r₁.results) : r₁.Admits start whole before i where
  destination d hd := (ha.destination d hd).imp_left fun hm => List.map_subset _ hr hm
  sources s hs := (ha.sources s hs).mono hc
  accumulate := ha.accumulate

namespace Describe

theorem none (start : Builder) (whole : Tree) : empty.Describe start whole start :=
  ⟨rfl, ⟨[], .refl _, .refl []⟩, by simp [empty], by simp [empty], by simp [empty],
    by simp [empty]⟩

theorem takeLabel (hd : r.Describe start whole b) :
    r.takeLabel.Describe start whole b.takeLabel where
  nextLabel := congrArg (· + 1) hd.nextLabel
  table := hd.table
  code := hd.code
  literals := hd.literals
  zeros := hd.zeros
  admitted := fun before i after e => (hd.admitted before i after e).mono (List.Subset.refl _)
    (List.Subset.refl _)

theorem withConstant (hd : r.Describe start whole b) {v : Value} (hv : v ∈ whole.constants) :
    (r.withConstant ⟨b.freshName, v.kind, v⟩).Describe start whole (b.withTemp v) where
  nextLabel := hd.nextLabel
  table := by
    obtain ⟨new, hgains, hperm⟩ := hd.table
    refine ⟨_, hgains.withTemp v, ?_⟩
    have hmove := hperm.append_right [(⟨b.freshName, v.kind, v⟩ : Variable)]
    rw [List.append_assoc] at hmove
    rw [Additions.withConstant, List.append_assoc]
    exact hmove.trans (List.perm_append_comm.append_left _)
  code := hd.code
  literals := by
    intro w hw
    rcases List.mem_append.mp hw with hw | hw
    · exact hd.literals w hw
    · rw [List.mem_singleton.mp hw]
      exact hv
  zeros := hd.zeros
  admitted := fun before i after e => (hd.admitted before i after e).mono
    (List.subset_append_left _ _) (List.Subset.refl _)

theorem withResult (hd : r.Describe start whole b) (k : Kind) :
    (r.withResult ⟨b.freshName, k, .zero k⟩).Describe start whole (b.withTemp (.zero k)) where
  nextLabel := hd.nextLabel
  table := by
    obtain ⟨new, hgains, hperm⟩ := hd.table
    have hmore := hgains.withTemp (.zero k)
    rw [Value.kind_zero] at hmore
    refine ⟨_, hmore, ?_⟩
    rw [Additions.withResult, ← List.append_assoc]
    exact hperm.append_right _
  code := hd.code
  literals := hd.literals
  zeros := by
    intro w hw
    rcases List.mem_append.mp hw with hw | hw
    · exact hd.zeros w hw
    · rw [List.mem_singleton.mp hw]
  admitted := fun before i after e => (hd.admitted before i after e).mono
    (List.Subset.refl _) (List.subset_append_left _ _)

/-- One more instruction, where it is admitted. -/
theorem push (hd : r.Describe start whole b) (hi : r.Admits start whole r.code i) :
    (r.push i).Describe start whole (b.push i) where
  nextLabel := hd.nextLabel
  table := hd.table
  code := by rw [Builder.code_push, hd.code, List.append_assoc, Additions.push]
  literals := hd.literals
  zeros := hd.zeros
  admitted := forall_split_concat
    (fun before i after e => (hd.admitted before i after e).mono (List.Subset.refl _)
      (List.Subset.refl _))
    (hi.mono (List.Subset.refl _) (List.Subset.refl _))

end Describe

namespace Follows

theorem refl (r : Additions) : r.Follows [] r :=
  ⟨⟨[], by simp, rfl⟩, List.Subset.refl _, fun _ => .inl, List.prefix_rfl⟩

theorem trans (hf : r.Follows vs r₁) (hf' : r₁.Follows ws r₂) : r.Follows (vs ++ ws) r₂ := by
  obtain ⟨new, hconstants, rfl⟩ := hf.constants
  obtain ⟨new', hconstants', rfl⟩ := hf'.constants
  refine ⟨⟨new ++ new', ?_, List.map_append⟩, List.Subset.trans hf.results hf'.results, ?_,
    hf.code.trans hf'.code⟩
  · rw [hconstants', hconstants, List.append_assoc]
  · intro v hv
    rcases hf'.settles v hv with hv | hw
    · exact (hf.settles v hv).imp_right fun hw => hw.mono hf'.code
    · exact .inr hw

theorem push (r : Additions) (i : Instruction) : r.Follows [] (r.push i) :=
  ⟨⟨[], by simp [Additions.push], rfl⟩, List.Subset.refl _, fun _ => .inl, ⟨[i], rfl⟩⟩

theorem takeLabel (r : Additions) : r.Follows [] r.takeLabel :=
  ⟨⟨[], by simp [Additions.takeLabel], rfl⟩, List.Subset.refl _, fun _ => .inl, List.prefix_rfl⟩

/-- What was settled still is, and what is new is settled. -/
theorem settled (hf : r.Follows vs r₁) (hs : r.Settled) : r₁.Settled := by
  intro v hv
  rcases hf.settles v hv with hv | hw
  · exact (hs v hv).mono hf.code
  · exact hw

end Follows

namespace Runs

theorem refl (r : Additions) : r.Runs [] r := ⟨.refl r, rfl, [], by simp⟩

theorem trans (hr : r.Runs vs r₁) (hr' : r₁.Runs ws r₂) : r.Runs (vs ++ ws) r₂ := by
  obtain ⟨segment, hcode, hs⟩ := hr.computes
  obtain ⟨segment', hcode', hs'⟩ := hr'.computes
  refine ⟨hr.toFollows.trans hr'.toFollows, hr'.labels.trans hr.labels, segment ++ segment', ?_,
    fun i hi => ?_⟩
  · rw [hcode', hcode, List.append_assoc]
  · exact (List.mem_append.mp hi).elim (hs i) (hs' i)

theorem push (r : Additions) (hi : i.Computes) : r.Runs [] (r.push i) :=
  ⟨.push r i, rfl, [i], rfl, by simpa using hi⟩

/-- A result that was registered and is written at the end. -/
theorem withResult {v : Variable} (hr : (r.withResult v).Runs vs r₁)
    (hv : Provides r₁.code v.handle) : r.Runs vs r₁ := by
  refine ⟨⟨hr.constants, fun w hw => hr.results (List.mem_append_left _ hw), ?_, hr.code⟩,
    hr.labels, hr.computes⟩
  intro w hw
  rcases hr.settles w hw with hw | hw
  · rcases List.mem_append.mp hw with hw | hw
    · exact .inl hw
    · rw [List.mem_singleton.mp hw]
      exact .inr hv.writes
  · exact .inr hw

/-- A constant that was registered. -/
theorem withConstant (r : Additions) (v : Variable) : r.Runs [v.value] (r.withConstant v) :=
  ⟨⟨⟨[v], rfl, rfl⟩, List.Subset.refl _, fun _ => .inl, List.prefix_rfl⟩, rfl, [],
    by simp [Additions.withConstant]⟩

end Runs
end Additions
end ProcTree
