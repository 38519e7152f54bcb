/-
# Execution of lowered code

The machine that lowered code is written for is not part of the program.  This file gives its
instructions their plain meaning, as far as lowering emits them.

A machine has one value for each declared variable, an output and the number of the next
instruction.  Copies store the source, conversions and operators store the result that evaluation
gives on values of those kinds, an accumulation replaces its first operand, output instructions
write the text of a value, jumps go to the instruction that carries the label, and running past the
last instruction halts.  Where nothing is said, the machine is stuck: an operand of another kind,
an undeclared variable, a label that nothing carries.

* `Snapshot.Fits`: every declared variable has a value, and a variable that no instruction writes
  has the declared one.  Every step keeps this (`Snapshot.Fits.step`).
* `Program.Behaves`: what a run looks like from outside.  A program has at most one behavior
  (`Program.Behaves.unique`).
-/
import ProcTree.Code.Program
import ProcTree.Output
import ProcTree.Proofs.Lowering.Growth

namespace ProcTree

/-! ## 1. Memory -/

/-- The value of each variable that there is. -/
abbrev Memory := String → Option Value

namespace Memory

/-- Every declared variable has its declared value. -/
def ofDeclarations (vs : List Variable) : Memory :=
  fun name => (vs.find? fun v => v.name = name).map Variable.value

/-- The memory with another value for one variable. -/
def set (memory : Memory) (name : String) (v : Value) : Memory :=
  fun n => if n = name then some v else memory n

@[simp] theorem set_same (memory : Memory) (name : String) (v : Value) :
    memory.set name v name = some v := by simp [set]

@[simp] theorem set_other (memory : Memory) {name n : String} (v : Value) (h : n ≠ name) :
    memory.set name v n = memory n := by simp [set, h]

end Memory

/-! ## 2. Instructions -/

/-- What an opcode makes of one value. -/
def Opcode.ofOne : Opcode → Value → Option Value
  | .copy _, v | .copyOther, v => some v
  | .negate, .boolean b => some (.boolean !b)
  | .widen, .integer i => some (.real (ProcTree.widen i))
  | _, _ => none

/-- What an opcode makes of two values, which may be a failure. -/
def Opcode.ofTwo : Opcode → Value → Value → Option (Except Error Value)
  | .accumulate .integer a, .integer i, .integer j => some (.ok (.integer (a.integers i j)))
  | .accumulate .real a, .real x, .real y => some (.ok (.real (a.reals x y)))
  | .divide .integer, .integer i, .integer j =>
    some ((WholeDivision.quotient.integers i j).map .integer)
  | .divide .real, .real x, .real y => some (.ok (.real (x / y)))
  | .remainder, .integer i, .integer j => some ((WholeDivision.remainder.integers i j).map .integer)
  | .connect c, .boolean p, .boolean q => some (.ok (.boolean (c.booleans p q)))
  | .compare .integer c, .integer i, .integer j => some (.ok (.boolean (c.holds (Ord.compare i j))))
  | .compare .real c, .real x, .real y => some (.ok (.boolean (c.reals x y)))
  | _, _, _ => none

/-- Writes texts one after the other, up to the first that is refused. -/
def Output.writeAll (o : Output) : List String → Except Error Unit × Output
  | [] => (.ok (), o)
  | s :: ss =>
    match o.write s with
    | (.ok (), o) => o.writeAll ss
    | (.error e, o) => (.error e, o)

/-- A machine between two instructions. -/
structure Snapshot where
  memory : Memory
  output : Output
  /-- The number of the next instruction. -/
  next : Nat

/-- What comes of one step. -/
inductive Step where
  | to (s : Snapshot)
  | halted
  | failed (e : Error) (s : Snapshot)
  | stuck

namespace Snapshot

/-- The same machine at the next instruction. -/
def advance (s : Snapshot) : Snapshot := { s with next := s.next + 1 }

/-- The machine with a value stored, at the next instruction. -/
def filled (s : Snapshot) (d : Handle) (v : Value) : Snapshot :=
  ⟨s.memory.set d.name v, s.output, s.next + 1⟩

@[simp] theorem memory_filled (s : Snapshot) (d : Handle) (v : Value) :
    (s.filled d v).memory = s.memory.set d.name v := rfl
@[simp] theorem next_filled (s : Snapshot) (d : Handle) (v : Value) :
    (s.filled d v).next = s.next + 1 := rfl

/-- Stores a result into a declared variable. -/
def fill (s : Snapshot) (d : Handle) : Option (Except Error Value) → Step
  | some (.ok v) => if (s.memory d.name).isSome then .to (s.filled d v) else .stuck
  | some (.error e) => .failed e s
  | none => .stuck

/-- Writes texts. -/
def print (s : Snapshot) (texts : List String) : Step :=
  match s.output.writeAll texts with
  | (.ok (), output) => .to { s with output, next := s.next + 1 }
  | (.error e, output) => .failed e { s with output }

/-- Goes to the instruction that carries the label. -/
def jump (s : Snapshot) (code : List Instruction) (l : Label) : Step :=
  match code.findIdx? fun i => i.label = some l with
  | some n => .to { s with next := n }
  | none => .stuck

/-- The value of a variable. -/
def get (s : Snapshot) (h : Handle) : Option Value := s.memory h.name

end Snapshot

/-- What an instruction does. -/
def Instruction.exec (i : Instruction) (code : List Instruction) (s : Snapshot) : Step :=
  match i.operands with
  | .empty => if i.opcode = .noOp then .to s.advance else .stuck
  | .one a =>
    match i.opcode, s.get a with
    | .write, some v => s.print [v.text]
    | .writeLine, some v => s.print [v.text, "\n"]
    | _, _ => .stuck
  | .two d a =>
    s.fill d <|
      match i.opcode with
      | .accumulate n op => do (Opcode.accumulate n op).ofTwo (← s.get d) (← s.get a)
      | opcode => do return .ok (← opcode.ofOne (← s.get a))
  | .three d a b => s.fill d do i.opcode.ofTwo (← s.get a) (← s.get b)
  | .target l => if i.opcode = .goto then s.jump code l else .stuck
  | .oneTarget a l =>
    match i.opcode, s.get a with
    | .gotoUnless, some (.boolean true) => .to s.advance
    | .gotoUnless, some (.boolean false) => s.jump code l
    | _, _ => .stuck

/-! ## 3. Runs -/

/-- One step of code. -/
def step (code : List Instruction) (s : Snapshot) : Step :=
  match code[s.next]? with
  | some i => i.exec code s
  | none => .halted

/-- The second machine is reached from the first in so many steps. -/
inductive Reaches (code : List Instruction) : Nat → Snapshot → Snapshot → Prop
  | refl (s : Snapshot) : Reaches code 0 s s
  | head {n : Nat} {s s₁ s₂ : Snapshot} :
      step code s = .to s₁ → Reaches code n s₁ s₂ → Reaches code (n + 1) s s₂

namespace Reaches

variable {code : List Instruction} {m n : Nat} {s s₁ s₂ : Snapshot}

theorem trans (h : Reaches code m s s₁) (h' : Reaches code n s₁ s₂) :
    Reaches code (m + n) s s₂ := by
  induction h with
  | refl s =>
    rw [Nat.zero_add]
    exact h'
  | @head k s s₁ s₂ hs _ ih =>
    have he : k + 1 + n = k + n + 1 := by omega
    exact he ▸ .head hs (ih h')

theorem single (h : step code s = .to s₁) : Reaches code 1 s s₁ := .head h (.refl s₁)

/-- **Runs are deterministic**: the longer of two runs from one machine goes through the end of
the shorter. -/
theorem split (h : Reaches code m s s₁) (h' : Reaches code (m + n) s s₂) :
    Reaches code n s₁ s₂ := by
  induction h with
  | refl s =>
    rw [Nat.zero_add] at h'
    exact h'
  | @head k s t s₁ hs _ ih =>
    have he : k + 1 + n = k + n + 1 := by omega
    rw [he] at h'
    cases h' with
    | head hs' h' =>
      obtain rfl : t = _ := Step.to.inj (hs.symm.trans hs')
      exact ih h'

theorem eq_of_zero (h : Reaches code 0 s s₁) : s₁ = s := by
  cases h with
  | refl => rfl

/-- A run goes through every number of steps below its own. -/
theorem exists_of_le (h : Reaches code n s s₁) (hle : m ≤ n) : ∃ t, Reaches code m s t := by
  induction h generalizing m with
  | refl s =>
    obtain rfl : m = 0 := by omega
    exact ⟨s, .refl s⟩
  | @head k s t s₁ hs _ ih =>
    cases m with
    | zero => exact ⟨s, .refl s⟩
    | succ m =>
      obtain ⟨u, hu⟩ := ih (show m ≤ k by omega)
      exact ⟨u, .head hs hu⟩

/-- A machine that does not step on is reached last. -/
theorem le_of_last (h : Reaches code m s s₁) (h' : Reaches code n s s₂)
    (hlast : ∀ t, step code s₁ ≠ .to t) : n ≤ m := by
  rcases Nat.lt_or_ge m n with hlt | hge
  · exfalso
    obtain ⟨k, rfl⟩ : ∃ k, n = m + (k + 1) := ⟨n - m - 1, by omega⟩
    cases h.split h' with
    | head hs _ => exact hlast _ hs
  · exact hge

/-- Two runs that do not step on end in the same machine. -/
theorem last_unique (h : Reaches code m s s₁) (h' : Reaches code n s s₂)
    (hlast : ∀ t, step code s₁ ≠ .to t) (hlast' : ∀ t, step code s₂ ≠ .to t) : s₂ = s₁ := by
  obtain rfl : m = n := Nat.le_antisymm (h'.le_of_last h hlast') (h.le_of_last h' hlast)
  exact (h.split (n := 0) h').eq_of_zero

end Reaches

/-! ## 4. What every step keeps -/

/-- A step leaves the memory alone or stores into one variable that the code writes. -/
theorem memory_of_step {code : List Instruction} {s s' : Snapshot} (h : step code s = .to s') :
    s'.memory = s.memory ∨
      ∃ name v, Writes code name ∧ s'.memory = s.memory.set name v := by
  unfold step at h
  cases hi : code[s.next]? with
  | none => simp [hi] at h
  | some i =>
    have hmem : i ∈ code := List.mem_of_getElem? hi
    have fills : ∀ {d : Handle} {out : Option (Except Error Value)},
        i.destination? = some d → s.fill d out = .to s' →
          ∃ name v, Writes code name ∧ s'.memory = s.memory.set name v := by
      intro d out hd hf
      unfold Snapshot.fill at hf
      split at hf
      · split at hf
        · cases hf
          exact ⟨d.name, _, ⟨i, hmem, d, hd, rfl⟩, rfl⟩
        · cases hf
      · cases hf
      · cases hf
    have jumps : ∀ {l : Label}, s.jump code l = .to s' → s'.memory = s.memory := by
      intro l hj
      unfold Snapshot.jump at hj
      split at hj <;> cases hj
      rfl
    have prints : ∀ {texts : List String}, s.print texts = .to s' → s'.memory = s.memory := by
      intro texts hp
      unfold Snapshot.print at hp
      split at hp <;> cases hp
      rfl
    rw [hi] at h
    simp only [Instruction.exec] at h
    split at h
    · split at h <;> cases h
      exact .inl rfl
    · split at h
      · exact .inl (prints h)
      · exact .inl (prints h)
      · cases h
    · next d a ho =>
      have hd : i.destination? = some d := by
        simp [Instruction.destination?, ho, Operands.destination?]
      exact .inr (fills hd h)
    · next d a b ho =>
      have hd : i.destination? = some d := by
        simp [Instruction.destination?, ho, Operands.destination?]
      exact .inr (fills hd h)
    · split at h
      · exact .inl (jumps h)
      · cases h
    · split at h
      · cases h
        exact .inl rfl
      · exact .inl (jumps h)
      · cases h

/-- Every declared variable has a value, and a variable that no instruction writes has the
declared one. -/
structure Snapshot.Fits (vs : List Variable) (code : List Instruction) (s : Snapshot) : Prop where
  declared : ∀ v ∈ vs, (s.memory v.name).isSome
  constants : ∀ v ∈ vs, ¬ Writes code v.name → s.memory v.name = some v.value

namespace Snapshot.Fits

variable {vs : List Variable} {code : List Instruction} {s s' : Snapshot}

/-- **One step keeps declared variables and constants.** -/
theorem step (hf : s.Fits vs code) (h : ProcTree.step code s = .to s') : s'.Fits vs code := by
  rcases memory_of_step h with hm | ⟨name, value, hw, hm⟩
  · exact ⟨fun v hv => hm ▸ hf.declared v hv, fun v hv hn => hm ▸ hf.constants v hv hn⟩
  · constructor
    · intro v hv
      rw [hm, Memory.set]
      split
      · rfl
      · exact hf.declared v hv
    · intro v hv hn
      have hne : v.name ≠ name := fun e => hn (e ▸ hw)
      rw [hm, Memory.set_other s.memory value hne]
      exact hf.constants v hv hn

/-- **A whole run keeps them.** -/
theorem reaches (hf : s.Fits vs code) {n : Nat} (h : Reaches code n s s') : s'.Fits vs code := by
  induction h with
  | refl => exact hf
  | head hs _ ih => exact ih (hf.step hs)

/-- At the start every variable has its declared value. -/
theorem start (hn : (vs.map Variable.name).Nodup) (code : List Instruction) (o : Output) :
    (⟨.ofDeclarations vs, o, 0⟩ : Snapshot).Fits vs code := by
  have hval : ∀ v ∈ vs, Memory.ofDeclarations vs v.name = some v.value := by
    intro v hv
    rw [Memory.ofDeclarations, Variable.find?_of_mem hn hv]
    rfl
  exact ⟨fun v hv => by simp [hval v hv], fun v hv _ => hval v hv⟩

end Snapshot.Fits

/-! ## 5. Behavior -/

/-- How a run looks from outside: it ends with values and an output, it fails with an error, or it
goes on for ever. -/
inductive Behavior where
  | finishes (values : List (Option Value)) (output : Output)
  | fails (e : Error) (values : List (Option Value)) (output : Output)
  | diverges
deriving DecidableEq

namespace Program

/-- The machine before the first instruction of a program. -/
def start (p : Program) (o : Output) : Snapshot := ⟨.ofDeclarations p.declarations, o, 0⟩

/-- Running the program looks like this, where the values are those of the listed variables. -/
def Behaves (p : Program) (names : List String) (o : Output) : Behavior → Prop
  | .finishes values output => ∃ n s, Reaches p.code n (p.start o) s ∧ step p.code s = .halted ∧
      names.map s.memory = values ∧ s.output = output
  | .fails e values output => ∃ n s s', Reaches p.code n (p.start o) s ∧
      step p.code s = .failed e s' ∧ names.map s'.memory = values ∧ s'.output = output
  | .diverges => ∀ n, ∃ s, Reaches p.code n (p.start o) s

/-- **A program has at most one behavior.** -/
theorem Behaves.unique {p : Program} {names : List String} {o : Output} {β β' : Behavior}
    (h : p.Behaves names o β) (h' : p.Behaves names o β') : β = β' := by
  have ends : ∀ {n : Nat} {s : Snapshot}, Reaches p.code n (p.start o) s →
      (∀ t, step p.code s ≠ .to t) → ¬ p.Behaves names o .diverges := by
    intro n s hr hlast hd
    obtain ⟨t, ht⟩ := hd (n + 1)
    have hle := hr.le_of_last ht hlast
    omega
  cases β with
  | finishes values output =>
    obtain ⟨n, s, hr, hs, hv, ho⟩ := h
    have hlast : ∀ t, step p.code s ≠ .to t := fun t ht => by simp [hs] at ht
    cases β' with
    | finishes values' output' =>
      obtain ⟨n', s', hr', hs', hv', ho'⟩ := h'
      obtain rfl := hr.last_unique hr' hlast fun t ht => by simp [hs'] at ht
      rw [← hv, ← ho, ← hv', ← ho']
    | fails e values' output' =>
      obtain ⟨n', s', t, hr', hs', -, -⟩ := h'
      obtain rfl := hr.last_unique hr' hlast fun t ht => by simp [hs'] at ht
      exact absurd (hs.symm.trans hs') (by simp)
    | diverges => exact absurd h' (ends hr hlast)
  | fails e values output =>
    obtain ⟨n, s, t, hr, hs, hv, ho⟩ := h
    have hlast : ∀ t, step p.code s ≠ .to t := fun t ht => by simp [hs] at ht
    cases β' with
    | finishes values' output' =>
      obtain ⟨n', s', hr', hs', -, -⟩ := h'
      obtain rfl := hr.last_unique hr' hlast fun t ht => by simp [hs'] at ht
      exact absurd (hs.symm.trans hs') (by simp)
    | fails e' values' output' =>
      obtain ⟨n', s', t', hr', hs', hv', ho'⟩ := h'
      obtain rfl := hr.last_unique hr' hlast fun t ht => by simp [hs'] at ht
      obtain ⟨rfl, rfl⟩ := Step.failed.inj (hs.symm.trans hs')
      rw [← hv, ← ho, ← hv', ← ho']
    | diverges => exact absurd h' (ends hr hlast)
  | diverges =>
    cases β' with
    | finishes values' output' =>
      obtain ⟨n', s', hr', hs', -, -⟩ := h'
      exact absurd h (ends hr' fun t ht => by simp [hs'] at ht)
    | fails e' values' output' =>
      obtain ⟨n', s', t', hr', hs', -, -⟩ := h'
      exact absurd h (ends hr' fun t ht => by simp [hs'] at ht)
    | diverges => rfl

end Program
end ProcTree
