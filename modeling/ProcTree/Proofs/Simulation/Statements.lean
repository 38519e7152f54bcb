/-
# Executing the code of a tree

The code of a tree follows the evaluation of the tree (`Tree.lower_simulates`): where evaluation
succeeds, the machine arrives at the end of the code with the same values and the same output; where
evaluation fails, the machine fails with the same error; and where a loop runs out of rounds, the
machine has made at least as many steps and is still running.

The argument goes node by node.  `operand_simulates` executes the code of an operand, and
`branch_simulates` that of a condition and the jump behind it.  A jump finds its label because
labels are distinct (`Builder.findIdx?_carrier`).
-/
import ProcTree.Proofs.Simulation.Expressions

namespace ProcTree

/-! ## 1. Following an evaluation -/

/-- The machine does what the result of an evaluation says. -/
def Simulates {α : Type} (base : Table) (code : List Instruction) (bound : Nat) (s : Snapshot)
    (stop : Nat) : EStateM.Result Stop Machine α → Prop
  | .ok _ m' => ∃ n s', Reaches code n s s' ∧ s'.next = stop ∧ Matches base m' s'
  | .error (.failed e) m' =>
    ∃ n s' s'', Reaches code n s s' ∧ step code s' = .failed e s'' ∧ Matches base m' s''
  | .error .outOfRounds m' => ∃ n s', bound ≤ n ∧ Reaches code n s s' ∧ Matches base m' s'

namespace Simulates

variable {α β : Type} {base : Table} {code : List Instruction} {bound bound' stop : Nat}
  {s s₁ : Snapshot} {m : Machine}

/-- Steps made before count as well. -/
theorem after {n : Nat} {res : EStateM.Result Stop Machine α} (hr : Reaches code n s s₁)
    (h : Simulates base code bound s₁ stop res) (hle : bound' ≤ n + bound) :
    Simulates base code bound' s stop res := by
  cases res with
  | ok a m' =>
    obtain ⟨k, s', hk, hn, hm⟩ := h
    exact ⟨n + k, s', hr.trans hk, hn, hm⟩
  | error stopped m' =>
    cases stopped with
    | failed e =>
      obtain ⟨k, s', s'', hk, hs, hm⟩ := h
      exact ⟨n + k, s', s'', hr.trans hk, hs, hm⟩
    | outOfRounds =>
      obtain ⟨k, s', hb, hk, hm⟩ := h
      exact ⟨n + k, s', by omega, hr.trans hk, hm⟩

/-- **A sequence is followed** when its parts are. -/
theorem bind {x : Run α} {f : α → Run β} {mid : Nat}
    (hx : Simulates base code bound s mid (x m))
    (hf : ∀ a m₁ s₁ n, x m = .ok a m₁ → Reaches code n s s₁ → s₁.next = mid →
      Matches base m₁ s₁ → Simulates base code bound s₁ stop (f a m₁)) :
    Simulates base code bound s stop ((x >>= f) m) := by
  cases hxm : x m with
  | ok a m₁ =>
    rw [hxm] at hx
    obtain ⟨n, s₁, hr, hn, hm⟩ := hx
    rw [bind_of_ok hxm]
    exact (hf a m₁ s₁ n hxm hr hn hm).after hr (Nat.le_add_left bound n)
  | error stopped m₁ =>
    rw [hxm] at hx
    rw [bind_of_error hxm]
    cases stopped <;> exact hx

/-- A part whose result is dropped. -/
theorem discard {x : Run α} (hx : Simulates base code bound s stop (x m)) :
    Simulates base code bound s stop (Functor.discard x m) := by
  cases hxm : x m with
  | ok a m₁ =>
    rw [hxm] at hx
    rw [discard_eq_ok_iff (u := ⟨⟩) |>.mpr ⟨a, hxm⟩]
    exact hx
  | error stopped m₁ =>
    rw [hxm] at hx
    rw [discard_eq_error_iff.mpr hxm]
    cases stopped <;> exact hx

/-- Nothing is left to do. -/
theorem done {a : α} (hn : s.next = stop) (hm : Matches base m s) :
    Simulates base code bound s stop ((pure a : Run α) m) := ⟨0, s, .refl s, hn, hm⟩

end Simulates

/-! ## 2. Jumps -/

namespace Matches

variable {base : Table} {m : Machine} {s : Snapshot}

/-- Moving on changes nothing that an evaluation sees. -/
theorem move (h : Matches base m s) (n : Nat) : Matches base m { s with next := n } :=
  ⟨h.wellFormed, h.shape, h.values, h.output⟩

/-- **The same store on both sides.** -/
theorem store (h : Matches base m s) {g : Handle} (hg : base.Registers g) {v : Value}
    (hv : v.kind = g.kind) :
    Matches base { m with table := m.table.store g.name v } (s.filled g v) := by
  obtain ⟨var, hfind, hkind⟩ := Table.registers_iff.mp (h.shape.registers.mpr hg)
  refine ⟨h.wellFormed.store hfind (hv.trans hkind.symm), h.shape.trans
    (Table.sameShape_store m.table g.name v), ?_, h.output⟩
  intro name hname
  rw [Table.find?_store, Snapshot.memory_filled]
  by_cases he : name = g.name
  · rw [he, Memory.set_same, hfind]
    simp [Table.name_of_find? hfind]
  · rw [Memory.set_other s.memory v he, h.values name hname]
    cases hf : m.table.find? name with
    | none => rfl
    | some w =>
      have hw : w.name ≠ g.name := fun e => he ((Table.name_of_find? hf).symm.trans e)
      simp [hw]

end Matches

namespace Builder

variable {free : String → Prop} {b B : Builder} {s : Snapshot} {l : Label}

/-- **A label is found where it was attached**, if labels are distinct. -/
theorem findIdx?_carrier (hlabels : (B.code.filterMap Instruction.label).Nodup)
    (hB : Grows free (b.push (.carrier l)) B) :
    B.code.findIdx? (fun i => i.label = some l) = some b.code.length := by
  obtain ⟨rest, hrest⟩ := hB.code_prefix
  rw [← hrest, code_push, List.append_assoc, List.filterMap_append, List.nodup_append] at hlabels
  have hbefore : b.code.findIdx? (fun i => decide (i.label = some l)) = none := by
    refine List.findIdx?_eq_none_iff.mpr fun i hi => ?_
    rw [decide_eq_false_iff_not]
    intro hl
    refine hlabels.2.2 l (List.mem_filterMap.mpr ⟨i, hi, hl⟩) l ?_ rfl
    exact List.mem_filterMap.mpr ⟨.carrier l, by simp, rfl⟩
  rw [← hrest, code_push, List.append_assoc, List.findIdx?_append, hbefore]
  simp [List.findIdx?_cons, Instruction.carrier]

theorem step_carrier (hB : Grows free (b.push (.carrier l)) B) (hn : s.next = b.code.length) :
    step B.code s = .to s.advance := by
  rw [step_of_push hB hn]
  rfl

theorem step_jumping {place : Nat} (hB : Grows free (b.push (Tree.jumping l)) B)
    (hn : s.next = b.code.length)
    (hplace : B.code.findIdx? (fun i => i.label = some l) = some place) :
    step B.code s = .to { s with next := place } := by
  rw [step_of_push hB hn]
  simp [Instruction.exec, Tree.jumping, Snapshot.jump, hplace]

theorem step_leaving {condition : Handle} {place : Nat} {p : Bool}
    (hB : Grows free (b.push (Tree.leaving condition l)) B) (hn : s.next = b.code.length)
    (hp : s.get condition = some (.boolean p))
    (hplace : B.code.findIdx? (fun i => i.label = some l) = some place) :
    step B.code s = .to (if p then s.advance else { s with next := place }) := by
  rw [step_of_push hB hn]
  cases p <;> simp [Instruction.exec, Tree.leaving, hp, Snapshot.jump, hplace]

end Builder

namespace Tree
open Lowering Builder

variable {α : Type} {base : Table} {B : Builder} {m : Machine} {rounds bound stop : Nat}
  {b b₁ : Builder} {s : Snapshot} {h : Handle}

/-! ## 3. Operands and conditions -/

/-- **An operand is executed**, and its value is in the variable that lowering gave. -/
theorem operand_simulates {a : Tree} {construct : String} {rest : Value → Run α}
    (hl : a.lower .structured b = .ok (some h) b₁) (hb : Over base b) (hB : Within base b₁ B)
    (hc : a.check = .ok ()) (ht : a.staticType ≠ none) (hr : a.RegisteredIn base)
    (hm : Matches base m s) (hs : s.Fits B.table.entries B.code) (hn : s.next = b.code.length)
    (hrest : ∀ v s₁, some v.kind = a.staticType → s₁.next = b₁.code.length →
      s₁.get h = some v → Matches base m s₁ → s₁.Fits B.table.entries B.code →
        Simulates base B.code bound s₁ stop (rest v m)) :
    Simulates base B.code bound s stop
      ((a.compute rounds >>= fun r => Run.needed construct r >>= rest) m) := by
  have hdel := lower_delivers a hl hb hB hc ht hr hm hs hn
  rw [operand_of_value _ _ (compute_expression rounds m a hc ht)]
  cases hv : a.value m.table with
  | ok v =>
    rw [hv] at hdel
    obtain ⟨s₁, hlead, hn₁, hget⟩ := hdel
    have hkind := kind_of_value hm.wellFormed (hm.registeredIn hr) hc ht hv
    obtain ⟨n, hrun⟩ := hlead.run
    exact (hrest v s₁ hkind hn₁ hget (hm.leads hlead hb.names) (hlead.fits hs)).after hrun
      (Nat.le_add_left bound n)
  | error e =>
    rw [hv] at hdel
    obtain ⟨s₁, hlead, hstep⟩ := hdel
    obtain ⟨n, hrun⟩ := hlead.run
    exact ⟨n, s₁, s₁, hrun, hstep, hm.leads hlead hb.names⟩

/-- **A condition is executed**, and then the jump that leaves if it is false. -/
theorem branch_simulates (b₂ : Builder) {c : Tree} {construct : String} {rest : Bool → Run α}
    {l : Label} {place : Nat} (hl : c.lower .structured b = .ok (some h) b₁) (hb : Over base b)
    (hB : Within base b₁ B) (hcode : b₂.code = b₁.code)
    (hB₂ : Within base (b₂.push (leaving h l)) B)
    (hplace : B.code.findIdx? (fun i => i.label = some l) = some place)
    (hc : c.check = .ok ()) (ht : c.staticType = some .boolean) (hr : c.RegisteredIn base)
    (hm : Matches base m s) (hs : s.Fits B.table.entries B.code) (hn : s.next = b.code.length)
    (htrue : ∀ s₁, s₁.next = (b₂.push (leaving h l)).code.length → Matches base m s₁ →
      s₁.Fits B.table.entries B.code → Simulates base B.code bound s₁ stop (rest true m))
    (hfalse : ∀ s₁, s₁.next = place → Matches base m s₁ → s₁.Fits B.table.entries B.code →
      Simulates base B.code bound s₁ stop (rest false m)) :
    Simulates base B.code bound s stop
      ((c.compute rounds >>= fun r => Run.needed construct r >>= fun v =>
        Run.ofExcept v.asBoolean >>= rest) m) := by
  refine operand_simulates hl hb hB hc (by simp [ht]) hr hm hs hn ?_
  intro v s₁ hkind hn₁ hget hm₁ hs₁
  obtain ⟨p, rfl⟩ := Value.kind_eq_boolean (Option.some.inj (hkind.trans ht))
  have hstep := step_leaving hB₂ (hn₁.trans (by rw [hcode])) hget hplace
  have hrun : (Run.ofExcept (Value.boolean p).asBoolean >>= rest) m = rest p m := rfl
  rw [hrun]
  cases p with
  | true =>
    refine (htrue s₁.advance ?_ (hm₁.move _) (hs₁.step hstep)).after (.single hstep) (by omega)
    rw [length_push, hcode, ← hn₁]
    rfl
  | false =>
    exact (hfalse { s₁ with next := place } rfl (hm₁.move _) (hs₁.step hstep)).after
      (.single hstep) (by omega)

end Tree

/-! ## 4. Assignments and output -/

/-- The instruction of an assignment stores the value as a variable of the target's kind does. -/
theorem Lowering.copy_ok {target source : Handle} {b b' : Builder}
    (h : Lowering.copy target source b = .ok () b') :
    ∃ o fits, b' = b.push ⟨o, .two target source, none, fits⟩ ∧
      (∀ n a, o ≠ .accumulate n a) ∧
        ∀ v : Value, v.kind = source.kind → o.ofOne v = some (v.promote target.kind) := by
  obtain ⟨t, k⟩ := target
  obtain ⟨n, k'⟩ := source
  have pushed : ∀ {o : Opcode} (fits), append ⟨o, .two ⟨t, k⟩ ⟨n, k'⟩, none, fits⟩ b = .ok () b' →
      b' = b.push ⟨o, .two ⟨t, k⟩ ⟨n, k'⟩, none, fits⟩ := fun _ h => append_eq_ok_iff.mp h
  cases k with
  | boolean =>
    cases k' with
    | boolean =>
      refine ⟨_, rfl, pushed rfl h, by simp, ?_⟩
      intro v hv
      obtain ⟨p, rfl⟩ := Value.kind_eq_boolean hv
      rfl
    | _ => cases h
  | integer =>
    cases k' with
    | integer =>
      refine ⟨_, rfl, pushed rfl h, by simp, ?_⟩
      intro v hv
      obtain ⟨i, rfl⟩ := Value.kind_eq_integer hv
      rfl
    | _ => cases h
  | real =>
    cases k' with
    | integer =>
      refine ⟨_, rfl, pushed rfl h, by simp, ?_⟩
      intro v hv
      obtain ⟨i, rfl⟩ := Value.kind_eq_integer hv
      rfl
    | real =>
      refine ⟨_, rfl, pushed rfl h, by simp, ?_⟩
      intro v hv
      obtain ⟨x, rfl⟩ := Value.kind_eq_real hv
      rfl
    | _ => cases h
  | string =>
    cases k' with
    | string =>
      refine ⟨_, rfl, pushed rfl h, by simp, ?_⟩
      intro v hv
      obtain ⟨x, rfl⟩ := Value.kind_eq_string hv
      rfl
    | _ => cases h

/-- **The same texts are written on both sides**, up to the first that is refused. -/
theorem Simulates.write {base : Table} {code : List Instruction} {bound : Nat} {m : Machine}
    {s : Snapshot} (hm : Matches base m s) {t : String} {newline : Bool}
    (hstep : step code s = s.print (if newline then [t, "\n"] else [t])) :
    Simulates base code bound s (s.next + 1) ((do
      Run.put t
      if newline then Run.put "\n"
      return none : Run (Option Value)) m) := by
  have written : ∀ {m : Machine} {u : String} {r : Except Error Unit} {o : Output},
      m.output.write u = (r, o) → Run.put u m = Run.ofExcept r { m with output := o } := by
    intro m u r o hw
    rw [Run.put_apply, hw]
    cases r <;> rfl
  have reach : ∀ {o : Output}, Matches base { m with output := o } { s with output := o } :=
    ⟨hm.wellFormed, hm.shape, hm.values, rfl⟩
  obtain ⟨r, o, hw⟩ : ∃ r o, m.output.write t = (r, o) := ⟨_, _, rfl⟩
  rw [Snapshot.print, hm.output] at hstep
  cases r with
  | error e =>
    rw [bind_of_error (written hw)]
    refine ⟨0, s, { s with output := o }, .refl s, ?_, reach⟩
    cases newline <;> simpa [Output.writeAll, hw] using hstep
  | ok u =>
    rw [bind_of_ok (written hw)]
    cases newline with
    | false =>
      have hstep : step code s = .to { s with output := o, next := s.next + 1 } := by
        simpa [Output.writeAll, hw] using hstep
      exact ⟨1, _, .single hstep, rfl, reach.move _⟩
    | true =>
      obtain ⟨r', o', hw'⟩ : ∃ r o', o.write "\n" = (r, o') := ⟨_, _, rfl⟩
      cases r' with
      | error e =>
        have hrun := bind_of_error (f := fun _ => (pure none : Run (Option Value)))
          (written (m := { m with output := o }) hw')
        refine Eq.subst (motive := Simulates base code bound s (s.next + 1)) hrun.symm ?_
        refine ⟨0, s, { s with output := o' }, .refl s, ?_, reach⟩
        simpa [Output.writeAll, hw, hw'] using hstep
      | ok u' =>
        have hrun := bind_of_ok (f := fun _ => (pure none : Run (Option Value)))
          (written (m := { m with output := o }) hw')
        refine Eq.subst (motive := Simulates base code bound s (s.next + 1)) hrun.symm ?_
        have hstep : step code s = .to { s with output := o', next := s.next + 1 } := by
          simpa [Output.writeAll, hw, hw'] using hstep
        exact ⟨1, _, .single hstep, rfl, reach.move _⟩

/-! ## 5. Trees -/

namespace Tree
open Lowering Builder

variable {base : Table} {B : Builder}

/-- Lowering gives a variable for an expression. -/
theorem exists_handle_of_lower {t : Tree} {b b' : Builder} {r : Option Handle}
    (ht : t.staticType ≠ none) (hl : t.lower .structured b = .ok r b') : ∃ h, r = some h := by
  cases t with
  | constant v => exact ⟨_, (lower_constant_iff.mp hl).1⟩
  | reference g =>
    obtain ⟨h, -, hr, -⟩ := lower_reference_iff.mp hl
    exact ⟨h, hr⟩
  | negation a =>
    obtain ⟨_, _, -, hr, -⟩ := lower_negation_iff.mp hl
    exact ⟨_, hr⟩
  | binary op a₁ a₂ =>
    obtain ⟨left, b₁, -, right, b₂, -, hc⟩ := lower_binary_iff.mp hl
    obtain ⟨k, hk⟩ := Option.ne_none_iff_exists'.mp
      (Operator.resultTy_ne_none op a₁.staticType a₂.staticType)
    rw [hk] at hc
    exact ⟨_, (combined_registers hc).1⟩
  | _ => exact absurd rfl ht

/-- Wherever the code of the tree stands in the finished code, it follows the evaluation. -/
def Followed (base : Table) (B : Builder) (rounds : Nat) (t : Tree) : Prop :=
  ∀ ⦃b b' : Builder⦄ ⦃r : Option Handle⦄ ⦃m : Machine⦄ ⦃s : Snapshot⦄,
    t.lower .structured b = .ok r b' → Over base b → Within base b' B → t.check = .ok () →
      t.RegisteredIn base → Matches base m s → s.Fits B.table.entries B.code →
        s.next = b.code.length → Simulates base B.code rounds s b'.code.length (t.compute rounds m)

/-- At the instruction of a label nothing is left to do but to pass it. -/
theorem at_carrier {α : Type} {b : Builder} {l : Label} {m : Machine} {s : Snapshot} {bound : Nat}
    {a : α} (hB : Within base (b.push (.carrier l)) B) (hn : s.next = b.code.length)
    (hm : Matches base m s) :
    Simulates base B.code bound s (b.push (.carrier l)).code.length ((pure a : Run α) m) := by
  have hnext : s.advance.next = (b.push (.carrier l)).code.length := by
    rw [length_push, ← hn]
    rfl
  exact (Simulates.done hnext (hm.move _)).after (.single (step_carrier hB hn))
    (Nat.le_add_left _ 1)

namespace Followed

variable {rounds : Nat} {b b' : Builder} {r : Option Handle}

/-- The code of a child writes new variables and variables of the table. -/
theorem grows_child {c t : Tree} (hct : c ∈ t.children) (hr : t.RegisteredIn base)
    (hl : c.lower .structured b = .ok r b') : Grows (· ∈ base.names) b b' := by
  refine lower_grows c (fun g hg => ?_) hl
  exact (hr g (handles_subset_of_child hct (targets_subset_handles c hg))).mem_names

/-- An instruction that writes nothing. -/
theorem grows_jump {i : Instruction} (hi : i.destination? = none) :
    Grows (· ∈ base.names) b (b.push i) :=
  .push b fun _ hd => absurd (hi.symm.trans hd) (by simp)

theorem expression {t : Tree} (ht : t.staticType ≠ none) : t.Followed base B rounds := by
  intro b b' r m s hl hb hB hc hr hm hs hn
  obtain ⟨h, rfl⟩ := exists_handle_of_lower ht hl
  have hdel := lower_delivers t hl hb hB hc ht hr hm hs hn
  rw [compute_expression rounds m t hc ht]
  cases hv : t.value m.table with
  | ok v =>
    rw [hv] at hdel
    obtain ⟨s₁, hlead, hn₁, -⟩ := hdel
    obtain ⟨n, hrun⟩ := hlead.run
    exact ⟨n, s₁, hrun, hn₁, hm.leads hlead hb.names⟩
  | error e =>
    rw [hv] at hdel
    obtain ⟨s₁, hlead, hstep⟩ := hdel
    obtain ⟨n, hrun⟩ := hlead.run
    exact ⟨n, s₁, s₁, hrun, hstep, hm.leads hlead hb.names⟩

theorem assign (g : Handle) (a : Tree) : (Tree.assign g a).Followed base B rounds := by
  intro b b' r m s hl hb hB hc hr hm hs hn
  obtain ⟨source, b₁, ha, hcopy, -⟩ := lower_assign_iff.mp hl
  obtain ⟨o, fits, rfl, hacc, hone⟩ := copy_ok hcopy
  obtain ⟨hca, htake⟩ := check_assign_iff.mp hc
  have hra := hr.of_child (c := a) (by simp [children])
  have hta : a.staticType ≠ none := by
    intro hnone
    simp [hnone, Ty.accepts] at htake
  have hreg : base.Registers g := hr.target
  have hpush : Grows (· ∈ base.names) b₁ (b₁.push ⟨o, .two g source, none, fits⟩) := by
    refine .push b₁ fun d hd => ?_
    cases hd
    exact hreg.mem_names
  have hB₁ : Within base b₁ B := hpush.trans hB
  have hb₁ : Over base b₁ := hb.grows (grows_child (t := .assign g a) (by simp [children]) hr ha)
  obtain ⟨-, hkind⟩ := registers_of_lower (fun g hg => hb.registers (hra g hg)) ha
  rw [compute]
  refine operand_simulates ha hb hB₁ hca hta hra hm hs hn ?_
  intro v s₁ hv hn₁ hget hm₁ hs₁
  have hpk : (v.promote g.kind).kind = g.kind := Value.kind_promote (hv ▸ htake)
  have hstep : step B.code s₁ = .to (s₁.filled g (v.promote g.kind)) := by
    have hdecl := isSome_of_mem hB₁ hs₁ g.name (hb₁.names hreg.mem_names)
    have hout := hone v (Option.some.inj (hv.trans hkind.symm))
    rw [step_of_push hB hn₁]
    cases o <;> simp [Instruction.exec, hget, hout, Snapshot.fill, hdecl] at hacc ⊢
  have hstore : Run.store g (v.promote g.kind) m =
      .ok () { m with table := m.table.store g.name (v.promote g.kind) } := by
    rw [Run.store_apply, (hm₁.shape.registers.mpr hreg).assign hpk]
  rw [bind_of_ok hstore, length_push, ← hn₁]
  exact ⟨1, _, .single hstep, rfl, hm₁.store hreg hpk⟩

theorem write (a : Tree) (n : Bool) : (Tree.write a n).Followed base B rounds := by
  intro b b' r m s hl hb hB hc hr hm hs hn
  obtain ⟨source, b₁, ha, -, rfl⟩ := lower_write_iff.mp hl
  obtain ⟨hca, hta⟩ := check_write_iff.mp hc
  have hra := hr.of_child (c := a) (by simp [children])
  have hB₁ : Within base b₁ B := (grows_jump (by cases n <;> rfl)).trans hB
  rw [compute]
  refine operand_simulates ha hb hB₁ hca hta hra hm hs hn ?_
  intro v s₁ hv hn₁ hget hm₁ hs₁
  have hstep : step B.code s₁ = s₁.print (if n then [v.text, "\n"] else [v.text]) := by
    rw [step_of_push hB hn₁]
    cases n <;> simp [Instruction.exec, writing, hget]
  rw [length_push, ← hn₁]
  exact .write hm₁ hstep

theorem choice {c a : Tree} (hlabels : (B.code.filterMap Instruction.label).Nodup)
    (iha : a.Followed base B rounds) : (Tree.choice c a).Followed base B rounds := by
  intro b b' r m s hl hb hB hc hr hm hs hn
  obtain ⟨condition, b₁, hlc, r₂, b₂, hla, -, rfl⟩ := lower_choice_iff.mp hl
  obtain ⟨hcc, hty, hca⟩ := check_choice_iff.mp hc
  have hrc := hr.of_child (c := c) (by simp [children])
  have hra := hr.of_child (c := a) (by simp [children])
  have g₁ := grows_child (t := .choice c a) (by simp [children]) hr hlc
  have g₂ := grows_child (t := .choice c a) (by simp [children]) hr hla
  have gj : Grows (· ∈ base.names) b₁.takeLabel (b₁.takeLabel.push (leaving condition b₁.label)) :=
    grows_jump rfl
  have hB₂ : Within base b₂ B := (Grows.carrier b₂ b₁.label).trans hB
  have hBj := g₂.trans hB₂
  have hB₁ : Within base b₁ B := ((Grows.takeLabel b₁).trans gj).trans hBj
  have hb₁ := hb.grows g₁
  have hbj := hb₁.grows ((Grows.takeLabel b₁).trans gj)
  have hplace := findIdx?_carrier hlabels hB
  rw [compute]
  refine branch_simulates b₁.takeLabel hlc hb hB₁ rfl hBj hplace hcc hty hrc hm hs hn ?_ ?_
  · intro s₁ hn₁ hm₁ hs₁
    have hbody := (iha hla hbj hB₂ hca hra hm₁ hs₁ hn₁).discard
    exact hbody.bind fun _ _ _ _ _ _ hn₂ hm₂ => at_carrier hB hn₂ hm₂
  · intro s₁ hn₁ hm₁ hs₁
    exact at_carrier hB hn₁ hm₁

theorem choiceElse {c a₁ a₂ : Tree} (hlabels : (B.code.filterMap Instruction.label).Nodup)
    (ih₁ : a₁.Followed base B rounds) (ih₂ : a₂.Followed base B rounds) :
    (Tree.choiceElse c a₁ a₂).Followed base B rounds := by
  intro b b' r m s hl hb hB hc hr hm hs hn
  obtain ⟨condition, b₁, hlc, r₂, b₂, hl₁, r₃, b₃, hl₂, -, rfl⟩ := lower_choiceElse_iff.mp hl
  obtain ⟨hcc, hty, hc₁, hc₂⟩ := check_choiceElse_iff.mp hc
  have hrc := hr.of_child (c := c) (by simp [children])
  have hr₁ := hr.of_child (c := a₁) (by simp [children])
  have hr₂ := hr.of_child (c := a₂) (by simp [children])
  have gc := grows_child (t := .choiceElse c a₁ a₂) (by simp [children]) hr hlc
  have g₁ := grows_child (t := .choiceElse c a₁ a₂) (by simp [children]) hr hl₁
  have g₂ := grows_child (t := .choiceElse c a₁ a₂) (by simp [children]) hr hl₂
  have gt : Grows (· ∈ base.names) b₁ b₁.takeLabel.takeLabel :=
    (Grows.takeLabel b₁).trans (.takeLabel _)
  have gj : Grows (· ∈ base.names) b₁.takeLabel.takeLabel
      (b₁.takeLabel.takeLabel.push (leaving condition b₁.label)) := grows_jump rfl
  have gjump : Grows (· ∈ base.names) b₂ (b₂.push (jumping b₁.takeLabel.label)) := grows_jump rfl
  -- From the end backwards: what comes later is in the finished code, so what comes before is.
  have hB₃ : Within base b₃ B := (Grows.carrier b₃ b₁.takeLabel.label).trans hB
  have hBo := g₂.trans hB₃
  have hBjump := (Grows.carrier _ b₁.label).trans hBo
  have hB₂ := gjump.trans hBjump
  have hBj := g₁.trans hB₂
  have hB₁ : Within base b₁ B := (gt.trans gj).trans hBj
  have hb₁ := hb.grows gc
  have hbj := hb₁.grows (gt.trans gj)
  have hbo := ((hbj.grows g₁).grows gjump).grows (.carrier _ b₁.label)
  have hotherwise := findIdx?_carrier hlabels hBo
  have hdone := findIdx?_carrier hlabels hB
  rw [compute]
  refine branch_simulates b₁.takeLabel.takeLabel hlc hb hB₁ rfl hBj hotherwise hcc hty hrc hm hs
    hn ?_ ?_
  · intro s₁ hn₁ hm₁ hs₁
    refine (ih₁ hl₁ hbj hB₂ hc₁ hr₁ hm₁ hs₁ hn₁).discard.bind ?_
    intro _ m₂ s₂ _ _ _ hn₂ hm₂
    have hstep := step_jumping hBjump hn₂ hdone
    exact (at_carrier hB rfl (hm₂.move b₃.code.length)).after (.single hstep) (Nat.le_add_left _ 1)
  · intro s₁ hn₁ hm₁ hs₁
    have hstep := step_carrier hBo hn₁
    have hn₂ : s₁.advance.next =
        ((b₂.push (jumping b₁.takeLabel.label)).push (.carrier b₁.label)).code.length := by
      rw [length_push, ← hn₁]
      rfl
    have hbody := (ih₂ hl₂ hbo hB₃ hc₂ hr₂ (hm₁.move _) (hs₁.step hstep) hn₂).discard
    refine Simulates.after (.single hstep) (hbody.bind ?_) (Nat.le_add_left _ 1)
    intro _ m₂ s₂ _ _ _ hn₂ hm₂
    exact at_carrier hB hn₂ hm₂

theorem loop {c a : Tree} (hlabels : (B.code.filterMap Instruction.label).Nodup)
    (iha : a.Followed base B rounds) : (Tree.loop c a).Followed base B rounds := by
  intro b b' r m s hl hb hB hc hr hm hs hn
  obtain ⟨condition, b₁, hlc, r₂, b₂, hla, -, rfl⟩ := lower_loop_iff.mp hl
  obtain ⟨hcc, hty, hca⟩ := check_loop_iff.mp hc
  have hrc := hr.of_child (c := c) (by simp [children])
  have hra := hr.of_child (c := a) (by simp [children])
  have gc := grows_child (t := .loop c a) (by simp [children]) hr hlc
  have ga := grows_child (t := .loop c a) (by simp [children]) hr hla
  have gs : Grows (· ∈ base.names) b (b.takeLabel.takeLabel.push (.carrier b.label)) :=
    ((Grows.takeLabel b).trans (.takeLabel _)).trans (.carrier _ b.label)
  have gj : Grows (· ∈ base.names) b₁ (b₁.push (leaving condition b.takeLabel.label)) :=
    grows_jump rfl
  have gback : Grows (· ∈ base.names) b₂ (b₂.push (jumping b.label)) := grows_jump rfl
  have hBback : Within base (b₂.push (jumping b.label)) B :=
    (Grows.carrier _ b.takeLabel.label).trans hB
  have hB₂ := gback.trans hBback
  have hBj := ga.trans hB₂
  have hB₁ := gj.trans hBj
  have hBs := gc.trans hB₁
  have hbs := hb.grows gs
  have hbj := (hbs.grows gc).grows gj
  have hstart := findIdx?_carrier hlabels hBs
  have hdone := findIdx?_carrier hlabels hB
  -- With `k` rounds left the machine stands at the first label again, after at least one step.
  have rounds_left : ∀ k, k ≤ rounds → ∀ {m : Machine} {s : Snapshot}, Matches base m s →
      s.Fits B.table.entries B.code → s.next = b.code.length →
        Simulates base B.code k s
          ((b₂.push (jumping b.label)).push (.carrier b.takeLabel.label)).code.length
          (Run.repeatWhile (do
            let v ← Run.needed "while" (← c.compute rounds)
            Run.ofExcept v.asBoolean) (discard (a.compute rounds)) k m) := by
    intro k
    induction k with
    | zero => exact fun _ m s hm _ _ => ⟨0, s, Nat.le_refl 0, .refl s, hm⟩
    | succ k ih =>
      intro hk m s hm hs hn
      have hstep := step_carrier hBs hn
      have hn₁ : s.advance.next = (b.takeLabel.takeLabel.push (.carrier b.label)).code.length := by
        rw [length_push, code_takeLabel, code_takeLabel, ← hn]
        rfl
      rw [Run.repeatWhile, bind_assoc]
      simp only [bind_assoc]
      refine (?_ : Simulates base B.code k s.advance _ _).after (.single hstep) (by omega)
      refine branch_simulates b₁ hlc hbs hB₁ rfl hBj hdone hcc hty hrc (hm.move _) (hs.step hstep)
        hn₁ ?_ ?_
      · intro s₁ hn₁ hm₁ hs₁
        have hbody := (iha hla hbj hB₂ hca hra hm₁ hs₁ hn₁).discard
        have hbody : Simulates base B.code k s₁ b₂.code.length _ :=
          hbody.after (.refl s₁) (by omega)
        refine hbody.bind ?_
        intro _ m₂ s₂ n _ hrun hn₂ hm₂
        have hs₂ := hs₁.reaches hrun
        have hback := step_jumping hBback hn₂ hstart
        exact (ih (by omega) (hm₂.move _) (hs₂.step hback) rfl).after (.single hback)
          (Nat.le_add_left k 1)
      · intro s₁ hn₁ hm₁ hs₁
        exact at_carrier hB hn₁ hm₁
  rw [compute]
  refine (rounds_left rounds (Nat.le_refl _) hm hs hn).bind ?_
  intro _ m₁ s₁ _ _ _ hn₁ hm₁
  exact .done hn₁ hm₁

theorem block {ts : List Tree} (ih : ∀ t ∈ ts, t.Followed base B rounds) :
    (Tree.block ts).Followed base B rounds := by
  intro b b' r m s hl hb hB hc hr hm hs hn
  obtain ⟨hall, -⟩ := lower_block_iff.mp hl
  have all : ∀ us, us ⊆ ts → ∀ {b : Builder} {m : Machine} {s : Snapshot},
      lowerAll .structured us b = .ok () b' → Over base b → Matches base m s →
        s.Fits B.table.entries B.code → s.next = b.code.length →
          Simulates base B.code rounds s b'.code.length (computeAll rounds us m) := by
    intro us
    induction us with
    | nil =>
      intro _ b m s h _ hm _ hn
      obtain rfl := lowerAll_nil_iff.mp h
      rw [computeAll]
      exact .done hn hm
    | cons u us ihus =>
      intro hus b m s h hb hm hs hn
      obtain ⟨r₁, b₁, hu, h⟩ := lowerAll_cons_iff.mp h
      have hmem : u ∈ (Tree.block ts).children := hus List.mem_cons_self
      have hlater : Grows (· ∈ base.names) b₁ b' :=
        lowerAll_composes Grows.composes (fun t ht => grows_child (t := .block ts)
          (hus (List.mem_cons_of_mem u ht)) hr) h
      have hfirst := (ih u hmem hu hb (hlater.trans hB) (check_block_iff.mp hc u hmem)
        (hr.of_child hmem) hm hs hn).discard
      rw [computeAll]
      refine hfirst.bind ?_
      intro _ m₁ s₁ n _ hrun hn₁ hm₁
      exact ihus (List.subset_of_cons_subset hus) h
        (hb.grows (grows_child (t := .block ts) hmem hr hu)) hm₁ (hs.reaches hrun) hn₁
  rw [compute]
  refine (all ts (List.Subset.refl ts) hall hb hm hs hn).bind ?_
  intro _ m₁ s₁ _ _ _ hn₁ hm₁
  exact .done hn₁ hm₁

end Followed

/-- **The code of a tree follows its evaluation**, wherever it stands in the finished code.  The
induction is on the tree, with one case for each node. -/
theorem lower_simulates (hlabels : (B.code.filterMap Instruction.label).Nodup) (rounds : Nat)
    (t : Tree) : t.Followed base B rounds := by
  induction t using Tree.ind with
  | constant v => exact Followed.expression (by simp [staticType])
  | reference g => exact Followed.expression (by simp [staticType])
  | negation a _ => exact Followed.expression (by simp [staticType])
  | binary op a₁ a₂ _ _ =>
    exact Followed.expression (Operator.resultTy_ne_none op a₁.staticType a₂.staticType)
  | assign g a _ => exact Followed.assign g a
  | write a n _ => exact Followed.write a n
  | choice c a _ iha => exact Followed.choice hlabels iha
  | choiceElse c a₁ a₂ _ ih₁ ih₂ => exact Followed.choiceElse hlabels ih₁ ih₂
  | loop c a _ iha => exact Followed.loop hlabels iha
  | block ts ih => exact Followed.block ih

end Tree
end ProcTree
