/-
# Executing the code of an expression

A machine matches an evaluation when it has the same values for the variables of the table and the
same output.  From such a machine the code of an expression delivers the value of the expression
into the variable that lowering gave for it (`Tree.lower_delivers`).

Operands are delivered from left to right.  The value of the left operand survives the code of the
right one, because that code writes new variables only, and a constant is found in its temporary
however often the code around it was executed, because nothing writes there
(`Builder.Over.not_writes`).
-/
import ProcTree.Proofs.Evaluation.Expression
import ProcTree.Proofs.Simulation.Operators

namespace ProcTree

/-! ## 1. Builders over a table -/

namespace Builder

/-- The builder has the variables of the table, and its code writes registered variables only. -/
structure Over (base : Table) (b : Builder) : Prop where
  entries : base.entries <+: b.table.entries
  written : ∀ name, Writes b.code name → name ∈ b.table.names

/-- The finished builder comes from this one by code that writes new variables and variables of
the table. -/
def Within (base : Table) (b B : Builder) : Prop := Grows (· ∈ base.names) b B

namespace Over

variable {base : Table} {b b' B : Builder}

theorem ofTable (base : Table) : Over base (.ofTable base) := by
  refine ⟨List.prefix_rfl, ?_⟩
  rintro name ⟨i, hi, -⟩
  exact absurd hi (by simp [Builder.ofTable])

theorem names (h : Over base b) : base.names ⊆ b.table.names :=
  Table.names_subset_of_prefix h.entries

theorem registers (h : Over base b) {g : Handle} (hg : base.Registers g) : b.table.Registers g :=
  hg.of_prefix h.entries

theorem grows (h : Over base b) (hg : Grows (· ∈ base.names) b b') : Over base b' := by
  obtain ⟨seg, hc, hw⟩ := hg.code
  refine ⟨h.entries.trans hg.entries, ?_⟩
  rintro name ⟨i, hi, d, hd, rfl⟩
  rw [hc] at hi
  rcases List.mem_append.mp hi with hi | hi
  · exact hg.names (h.written d.name ⟨i, hi, d, hd, rfl⟩)
  · rcases hw d.name ⟨i, hi, d, hd, rfl⟩ with hm | ⟨-, hm⟩
    · exact hg.names (h.names hm)
    · exact hm

/-- **Nothing writes the temporary of a constant.**  It is new for the code before, and neither new
nor a variable of the table for the code after. -/
theorem not_writes (h : Over base b) {v : Value} (hB : Within base (b.withTemp v) B) :
    ¬ Writes B.code b.freshName := by
  obtain ⟨seg, hc, hw⟩ := hB.code
  have hfresh : b.freshName ∉ b.table.names := b.table.freshName_not_mem
  rintro ⟨i, hi, d, hd, hname⟩
  rw [hc] at hi
  rcases List.mem_append.mp hi with hi | hi
  · exact hfresh (h.written b.freshName ⟨i, hi, d, hd, hname⟩)
  · rcases hw b.freshName ⟨i, hi, d, hd, hname⟩ with hm | ⟨hn, -⟩
    · exact hfresh (h.names hm)
    · exact hn (by simp [freshName])

end Over
end Builder

/-! ## 2. Machines that match an evaluation -/

/-- The machine has the values of the evaluation's table and its output. -/
structure Matches (base : Table) (m : Machine) (s : Snapshot) : Prop where
  wellFormed : m.table.WellFormed
  shape : base.SameShape m.table
  values : ∀ name ∈ base.names, s.memory name = (m.table.find? name).map Variable.value
  output : s.output = m.output

namespace Matches

variable {base : Table} {m : Machine} {s s' : Snapshot}

/-- What leaves the variables of the table alone still matches. -/
theorem leads (h : Matches base m s) {code : List Instruction} {names : List String}
    (hl : Leads code names s s') (hsub : base.names ⊆ names) : Matches base m s' := by
  refine ⟨h.wellFormed, h.shape, ?_, hl.output.trans h.output⟩
  intro name hname
  rw [hl.memory name (hsub hname), h.values name hname]

/-- The machine and the evaluation read the same value. -/
theorem get (h : Matches base m s) {g : Handle} (hg : base.Registers g) {v : Value}
    (hv : m.table.valueOf g = .ok v) : s.get g = some v := by
  obtain ⟨var, hfind, rfl⟩ := Table.valueOf_eq_ok_iff.mp hv
  rw [Snapshot.get, h.values g.name hg.mem_names, hfind]
  rfl

theorem registeredIn (h : Matches base m s) {t : Tree} (hr : t.RegisteredIn base) :
    t.RegisteredIn m.table := hr.of_sameShape h.shape

end Matches

/-! ## 3. Expressions -/

/-- What is delivered after a delivery is delivered, and so is the first failure. -/
theorem Delivers.bind {code : List Instruction} {names names' : List String} {s : Snapshot}
    {mid stop : Nat} {h h' : Handle} {x : Except Error Value} {f : Value → Except Error Value}
    (hx : Delivers code names s mid h x) (hsub : names ⊆ names')
    (hf : ∀ v s₁, x = .ok v → Leads code names s s₁ → s₁.next = mid → s₁.get h = some v →
      Delivers code names' s₁ stop h' (f v)) : Delivers code names s stop h' (x >>= f) := by
  cases x with
  | error e => exact hx
  | ok v =>
    obtain ⟨s₁, hl, hn, hv⟩ := hx
    exact hl.delivers (hf v s₁ rfl hl hn hv) hsub

namespace Tree
open Lowering Builder

variable {base : Table} {B : Builder} {m : Machine}

/-- The code of the tree delivers its value, if it is an accepted expression, wherever the code
stands in the finished code. -/
def Delivered (base : Table) (B : Builder) (m : Machine) (t : Tree) : Prop :=
  ∀ ⦃b b' : Builder⦄ ⦃h : Handle⦄ ⦃s : Snapshot⦄,
    t.lower .structured b = .ok (some h) b' → Over base b → Within base b' B →
      t.check = .ok () → t.staticType ≠ none → t.RegisteredIn base → Matches base m s →
        s.Fits B.table.entries B.code → s.next = b.code.length →
          Delivers B.code b.table.names s b'.code.length h (t.value m.table)

namespace Delivered

/-- Nothing is executed: the temporary holds the constant from the start. -/
theorem constant (v : Value) : (Tree.constant v).Delivered base B m := by
  intro b b' h s hl hb hB _ _ _ _ hs hn
  obtain ⟨hh, rfl⟩ := lower_constant_iff.mp hl
  cases hh
  have hentry : (⟨b.freshName, v.kind, v⟩ : Variable) ∈ B.table.entries :=
    hB.entries.subset (by simp [freshName])
  exact ⟨s, .refl s, hn, hs.constants _ hentry (hb.not_writes hB)⟩

/-- Nothing is executed: the variable holds what evaluation reads. -/
theorem reference (g : Handle) : (Tree.reference g).Delivered base B m := by
  intro b b' h s hl hb hB _ _ hr hm hs hn
  obtain ⟨g', hg, hh, rfl⟩ := lower_reference_iff.mp hl
  cases hh
  have hreg := hr g (reference_mem_handles g)
  obtain rfl : g = h := Except.ok.inj ((hb.registers hreg).symm.trans hg)
  obtain ⟨v, hv, -⟩ := (hm.shape.registers.mpr hreg).valueOf hm.wellFormed
  rw [value, hv]
  exact ⟨s, .refl s, hn, hm.get hreg hv⟩

theorem negation {a : Tree} (iha : a.Delivered base B m) :
    (Tree.negation a).Delivered base B m := by
  intro b b' h s hl hb hB hc _ hr hm hs hn
  obtain ⟨source, b₁, ha, hh, rfl⟩ := lower_negation_iff.mp hl
  cases hh
  obtain ⟨hca, hty⟩ := check_negation_iff.mp hc
  have hra := hr.of_child (c := a) (by simp [children])
  have htya : a.staticType ≠ none := by simp [hty]
  have hB₁ : Within base b₁ B := (negated_grows source b₁).trans hB
  have hg : Grows (fun _ => False) b b₁ :=
    lower_grows a (fun g hg => by simp [targets_eq_nil hca htya] at hg) ha
  refine (iha ha hb hB₁ hca htya hra hm hs hn).bind hg.names ?_
  intro v s₁ hv hlead hn₁ hget
  obtain ⟨p, rfl⟩ := Value.kind_eq_boolean (Option.some.inj
    ((kind_of_value hm.wellFormed (hm.registeredIn hra) hca htya hv).trans hty))
  have hstep : step B.code s₁ = s₁.fill ⟨b₁.freshName, .boolean⟩ (some (.ok (.boolean !p))) := by
    rw [step_of_push hB hn₁]
    simp [Instruction.exec, hget, Opcode.ofOne]
  have hdecl := isSome_of_mem hB (hlead.fits hs) b₁.freshName (by simp [freshName])
  rw [length_push, code_withTemp, ← hn₁]
  exact .of_fill hstep hdecl b₁.table.freshName_not_mem

/-- The second operand is executed where the first one has been delivered, and the operator where
both have. -/
theorem binary {op : Operator} {a₁ a₂ : Tree} (ih₁ : a₁.Delivered base B m)
    (ih₂ : a₂.Delivered base B m) : (Tree.binary op a₁ a₂).Delivered base B m := by
  intro b b' h s hl hb hB hc _ hr hm hs hn
  obtain ⟨left, b₁, h₁, right, b₂, h₂, hcomb⟩ := lower_binary_iff.mp hl
  obtain ⟨hc₁, hc₂, hop⟩ := check_binary_iff.mp hc
  obtain ⟨-, hty₁, hty₂⟩ := Operator.takes_of_check hop
  have hr₁ := hr.of_child (c := a₁) (by simp [children])
  have hr₂ := hr.of_child (c := a₂) (by simp [children])
  have g₁ : Grows (· ∈ base.names) b b₁ :=
    lower_grows a₁ (fun g hg => by simp [targets_eq_nil hc₁ hty₁] at hg) h₁
  have g₂ : Grows (· ∈ base.names) b₁ b₂ :=
    lower_grows a₂ (fun g hg => by simp [targets_eq_nil hc₂ hty₂] at hg) h₂
  obtain ⟨k, hk⟩ := Option.ne_none_iff_exists'.mp
    (Operator.resultTy_ne_none op a₁.staticType a₂.staticType)
  rw [hk] at hcomb
  obtain ⟨hh, -⟩ := combined_registers hcomb
  cases hh
  have g₃ : Grows (· ∈ base.names) b₂ b' := combined_grows hcomb
  have hover₁ := hb.grows g₁
  obtain ⟨hreg₁, hkind₁⟩ := registers_of_lower (fun g hg => hb.registers (hr₁ g hg)) h₁
  obtain ⟨hreg₂, hkind₂⟩ := registers_of_lower (fun g hg => hover₁.registers (hr₂ g hg)) h₂
  refine (ih₁ h₁ hb ((g₂.trans g₃).trans hB) hc₁ hty₁ hr₁ hm hs hn).bind g₁.names ?_
  intro x s₁ hx hlead₁ hn₁ hgetx
  have hm₁ := hm.leads hlead₁ hb.names
  refine (ih₂ h₂ hover₁ (g₃.trans hB) hc₂ hty₂ hr₂ hm₁ (hlead₁.fits hs) hn₁).bind g₂.names ?_
  intro y s₂ hy hlead₂ hn₂ hgety
  have hkx := kind_of_value hm.wellFormed (hm.registeredIn hr₁) hc₁ hty₁ hx
  have hky := kind_of_value hm.wellFormed (hm.registeredIn hr₂) hc₂ hty₂ hy
  have hgetx₂ : s₂.get left = some x := (hlead₂.get hreg₁.mem_names).trans hgetx
  rw [hk]
  exact combined_delivers hcomb hB (hlead₂.fits (hlead₁.fits hs)) hn₂
    (g₂.names hreg₁.mem_names) hreg₂.mem_names hgetx₂ hgety
    (Option.some.inj (hkx.trans hkind₁.symm)) (Option.some.inj (hky.trans hkind₂.symm))
    (by rw [hkx, hky]; exact hop) (by rw [hkx, hky]; exact hk)

end Delivered

/-- **The code of an expression delivers its value.** -/
theorem lower_delivers (t : Tree) : t.Delivered base B m := by
  induction t using Tree.ind with
  | constant v => exact Delivered.constant v
  | reference g => exact Delivered.reference g
  | negation a iha => exact Delivered.negation iha
  | binary op a₁ a₂ ih₁ ih₂ => exact Delivered.binary ih₁ ih₂
  | _ => exact fun _ _ _ _ _ _ _ _ ht => absurd rfl ht

end Tree
end ProcTree
