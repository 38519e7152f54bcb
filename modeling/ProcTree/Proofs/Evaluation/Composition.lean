/-
# Evaluation is composed of steps

Evaluating a tree does three things to a machine: it reads handles, it stores to targets and it
writes texts.  All the rest is order: operands, conditions, branches and the rounds of loops only
say which of these steps comes next.

So a property that holds of runs which only end, and that sequences keep (`Run.Composed`), holds of
the evaluation of a tree as soon as it holds of the steps at the nodes of the tree
(`Tree.compute_composed`).  The property is one of two runs side by side, whose tables may keep
their variables in different registries; a property of one run looks at the first of them only.
The induction over trees is done here once: what evaluation leaves alone, on which tables it goes
alike, what a full output does to it and that it does the same on indexed tables are instances.

* `Tree.compute_respects`: a relation between two machines that every read of a handle, every store
  to a target and every write respect is respected by evaluation.  The two runs take the same turns,
  and a loop goes through the same rounds.
* `Respects.store`, `Respects.put`, and so on: what a relation needs for that.
-/
import ProcTree.Proofs.Outcome
import ProcTree.Proofs.Tree

namespace ProcTree

variable {δ κ : Type}

/-! ## 1. Single steps -/

namespace Run

/-- Reading changes nothing. -/
theorem read_apply [Registry δ] (h : Handle) (m : Machine δ) :
    Run.read h m = Run.ofExcept (m.table.valueOf h) m := rfl

/-- Storing changes the table, or nothing when it fails. -/
theorem store_apply [Registry δ] (h : Handle) (v : Value) (m : Machine δ) :
    Run.store h v m = match m.table.assign h v with
      | .ok table => .ok () { m with table }
      | .error e => .error (.failed e) m := by
  have hs : Run.store h v m = (Run.ofExcept (m.table.assign h v) >>= fun table =>
      modify fun m => { m with table }) m := rfl
  rw [hs]
  cases m.table.assign h v <;> rfl

/-- Writing changes the output, also when it fails. -/
theorem put_apply (s : String) (m : Machine δ) :
    Run.put s m = match (m.output.write s).1 with
      | .ok () => .ok () { m with output := (m.output.write s).2 }
      | .error e => .error (.failed e) { m with output := (m.output.write s).2 } := by
  have hs : Run.put s m = Run.ofExcept (m.output.write s).1
      { m with output := (m.output.write s).2 } := rfl
  rw [hs]
  cases (m.output.write s).1 <;> rfl

/-- The property holds of every run that ends at once, and of a sequence whose parts have it. -/
structure Composed (P : {α : Type} → RunOn δ α → RunOn κ α → Prop) : Prop where
  pure : ∀ {α : Type} (a : α), P (Pure.pure a) (Pure.pure a)
  throw : ∀ {α : Type} (s : Stop), P (MonadExcept.throw s : RunOn δ α) (MonadExcept.throw s)
  bind : ∀ {α β : Type} {x : RunOn δ α} {y : RunOn κ α} {f : α → RunOn δ β} {g : α → RunOn κ β},
    P x y → (∀ a, P (f a) (g a)) → P (x >>= f) (y >>= g)

end Run

namespace Run.Composed

variable {P : {α : Type} → RunOn δ α → RunOn κ α → Prop} {α β : Type}

/-! ## 2. The parts of constructs -/

/-- A part, and then a result. -/
theorem result (hP : Run.Composed P) {x : RunOn δ α} {y : RunOn κ α} (hx : P x y) (f : α → β) :
    P (x >>= fun a => Pure.pure (f a)) (y >>= fun a => Pure.pure (f a)) :=
  hP.bind hx fun a => hP.pure (f a)

theorem discard (hP : Run.Composed P) {x : RunOn δ α} {y : RunOn κ α} (hx : P x y) :
    P (Functor.discard x : RunOn δ PUnit) (Functor.discard y) := by
  rw [discard_eq_bind, discard_eq_bind]
  exact hP.result hx _

theorem ofExcept (hP : Run.Composed P) (x : Except Error α) :
    P (Run.ofExcept x) (Run.ofExcept x) := by
  cases x with
  | ok a => exact hP.pure a
  | error e => exact hP.throw (.failed e)

theorem needed (hP : Run.Composed P) (construct : String) (r : Option Value) :
    P (Run.needed construct r) (Run.needed construct r) := by
  cases r with
  | none => exact hP.throw (.failed (.missingValue construct))
  | some v => exact hP.pure v

/-- An operand, and then what is done with its value. -/
theorem operand (hP : Run.Composed P) {construct : String} {x : RunOn δ (Option Value)}
    {y : RunOn κ (Option Value)} {f : Value → RunOn δ α} {g : Value → RunOn κ α} (hx : P x y)
    (hrest : ∀ v, P (f v) (g v)) :
    P (x >>= fun r => Run.needed construct r >>= f)
      (y >>= fun r => Run.needed construct r >>= g) :=
  hP.bind hx fun r => hP.bind (hP.needed construct r) hrest

/-- A condition, and then what is done with its truth. -/
theorem condition (hP : Run.Composed P) {construct : String} {x : RunOn δ (Option Value)}
    {y : RunOn κ (Option Value)} {f : Bool → RunOn δ α} {g : Bool → RunOn κ α} (hx : P x y)
    (hrest : ∀ b, P (f b) (g b)) :
    P (x >>= fun r => Run.needed construct r >>= fun v => Run.ofExcept v.asBoolean >>= f)
      (y >>= fun r => Run.needed construct r >>= fun v => Run.ofExcept v.asBoolean >>= g) :=
  hP.operand hx fun v => hP.bind (hP.ofExcept v.asBoolean) hrest

/-- A loop has what its test and its body have.  The induction is on the rounds that are left. -/
theorem repeatWhile (hP : Run.Composed P) {test : RunOn δ Bool} {test' : RunOn κ Bool}
    {body : RunOn δ Unit} {body' : RunOn κ Unit} (ht : P test test') (hb : P body body')
    (rounds : Nat) : P (Run.repeatWhile test body rounds) (Run.repeatWhile test' body' rounds) := by
  induction rounds with
  | zero => exact hP.throw .outOfRounds
  | succ rounds ih =>
    refine hP.bind ht ?_
    intro b
    cases b with
    | false => exact hP.pure ()
    | true => exact hP.bind hb fun _ => ih

end Run.Composed

/-! ## 3. Two runs side by side -/

variable {R : Machine δ → Machine κ → Prop}

namespace Respects

/-- Running a computation from two related machines is a sequence of running its parts. -/
theorem composed {R : Machine δ → Machine κ → Prop} : Run.Composed fun x y => Respects R x y :=
  ⟨Respects.pure, Respects.throw, Respects.bind⟩

/-- A read respects what makes both machines give the same value. -/
theorem read [Registry δ] [Registry κ] {h : Handle}
    (hR : ∀ {m m'}, R m m' → m.table.valueOf h = m'.table.valueOf h) :
    Respects R (Run.read h) (Run.read h) := by
  intro m m' hm
  rw [Run.read_apply, Run.read_apply, hR hm]
  exact composed.ofExcept _ m m' hm

/-- A store respects what it is refused under in both machines, or is kept by what it does. -/
theorem store [Registry δ] [Registry κ] {h : Handle} {v : Value}
    (hR : ∀ {m m'}, R m m' →
      (∃ e, m.table.assign h v = .error e ∧ m'.table.assign h v = .error e) ∨
        ∃ t t', m.table.assign h v = .ok t ∧ m'.table.assign h v = .ok t' ∧
          R { m with table := t } { m' with table := t' }) :
    Respects R (Run.store h v) (Run.store h v) := by
  intro m m' hm
  rw [Run.store_apply, Run.store_apply]
  obtain ⟨e, he, he'⟩ | ⟨t, t', ht, ht', hstored⟩ := hR hm
  · rw [he, he']
    exact .error hm
  · rw [ht, ht']
    exact .ok ⟨rfl, hstored⟩

/-- A write respects what goes by the output and is kept by another one. -/
theorem put (hR : ∀ {m m'}, R m m' → m.output = m'.output ∧
      ∀ output, R { m with output } { m' with output }) (s : String) :
    Respects R (Run.put s) (Run.put s) := by
  intro m m' hm
  obtain ⟨hsame, hkeeps⟩ := hR hm
  rw [Run.put_apply, Run.put_apply, ← hsame]
  cases (m.output.write s).1 with
  | ok => exact .ok ⟨rfl, hkeeps _⟩
  | error e => exact .error (hkeeps _)

theorem close (hR : ∀ {m m'}, R m m' → m.output = m'.output) :
    Respects R (get >>= fun m => Run.ofExcept m.output.close)
      (get >>= fun m => Run.ofExcept m.output.close) := by
  intro m m' hm
  have hclose := (composed (R := R)).ofExcept m.output.close m m' hm
  exact (congrArg (fun o => Alike _ _ (Run.ofExcept m.output.close m) (Run.ofExcept o.close m'))
    (hR hm)).mp hclose

end Respects

/-! ## 4. Whole trees -/

variable [Registry δ] [Registry κ]

/-- **Evaluation has what its steps have**: reads of the handles of the tree, stores to its targets,
and writes.  The induction is on the tree; the steps of a child are steps of the tree. -/
theorem Tree.compute_composed {P : {α : Type} → RunOn δ α → RunOn κ α → Prop}
    (hP : Run.Composed P) (rounds : Nat) (t : Tree)
    (hread : ∀ h ∈ t.handles, P (Run.read h) (Run.read h))
    (hstore : ∀ h ∈ t.targets, ∀ v, P (Run.store h v) (Run.store h v))
    (hput : ∀ s, P (Run.put s) (Run.put s)) : P (t.compute rounds) (t.compute rounds) := by
  have reads : ∀ {c t : Tree}, c ∈ t.children → (∀ h ∈ t.handles, P (Run.read h) (Run.read h)) →
      ∀ h ∈ c.handles, P (Run.read h) (Run.read h) :=
    fun hc hr h hh => hr h (handles_subset_of_child hc hh)
  have stores : ∀ {c t : Tree}, c ∈ t.children →
      (∀ h ∈ t.targets, ∀ v, P (Run.store h v) (Run.store h v)) →
      ∀ h ∈ c.targets, ∀ v, P (Run.store h v) (Run.store h v) :=
    fun hc hs h hh => hs h (targets_subset_of_child hc hh)
  induction t using Tree.induct_children with
  | h t ih =>
  replace ih : ∀ c ∈ t.children, P (c.compute rounds) (c.compute rounds) :=
    fun c hc => ih c hc (reads hc hread) (stores hc hstore)
  cases t with
  | constant v =>
    rw [compute, compute]
    exact hP.pure _
  | reference h =>
    rw [compute, compute]
    exact hP.result (hread h (reference_mem_handles h)) _
  | negation a =>
    rw [compute, compute]
    exact hP.condition (ih a (by simp [children])) fun _ => hP.pure _
  | binary op a b =>
    rw [compute, compute]
    refine hP.operand (ih a (by simp [children])) fun _ => ?_
    refine hP.operand (ih b (by simp [children])) fun _ => ?_
    exact hP.result (hP.ofExcept _) _
  | assign h a =>
    rw [compute, compute]
    refine hP.operand (ih a (by simp [children])) fun v => ?_
    exact hP.result (hstore h (target_mem_targets h a) _) _
  | write a n =>
    rw [compute, compute]
    refine hP.operand (ih a (by simp [children])) fun v => ?_
    refine hP.bind (hput _) fun _ => ?_
    split
    · exact hP.result (hput _) _
    · exact hP.pure _
  | choice c a =>
    rw [compute, compute]
    refine hP.condition (ih c (by simp [children])) fun truth => ?_
    split
    · exact hP.result (hP.discard (ih a (by simp [children]))) _
    · exact hP.pure _
  | choiceElse c a b =>
    rw [compute, compute]
    refine hP.condition (ih c (by simp [children])) fun truth => ?_
    split
    · exact hP.result (hP.discard (ih a (by simp [children]))) _
    · exact hP.result (hP.discard (ih b (by simp [children]))) _
  | loop c a =>
    rw [compute, compute]
    refine hP.result (hP.repeatWhile ?_ ?_ rounds) _
    · exact hP.operand (ih c (by simp [children])) fun _ => hP.ofExcept _
    · exact hP.discard (ih a (by simp [children]))
  | block ts =>
    rw [compute, compute]
    refine hP.result ?_ _
    have all : ∀ us : List Tree, us ⊆ ts → P (computeAll rounds us) (computeAll rounds us) := by
      intro us
      induction us with
      | nil =>
        intro _
        rw [computeAll, computeAll]
        exact hP.pure ()
      | cons u us ihus =>
        intro hus
        rw [computeAll, computeAll]
        exact hP.bind (hP.discard (ih u (hus List.mem_cons_self)))
          fun _ => ihus (List.subset_of_cons_subset hus)
    exact all ts (List.Subset.refl ts)

/-- **Interpretation** is the evaluation between a check and the close of the output. -/
theorem Tree.interpret_composed {P : {α : Type} → RunOn δ α → RunOn κ α → Prop}
    (hP : Run.Composed P) (rounds : Nat) (t : Tree)
    (hcompute : P (t.compute rounds) (t.compute rounds))
    (hclose : P (get >>= fun m => Run.ofExcept m.output.close)
      (get >>= fun m => Run.ofExcept m.output.close)) :
    P (t.interpret rounds) (t.interpret rounds) := by
  refine hP.bind (hP.ofExcept t.check) fun _ => ?_
  exact hP.bind (hP.discard hcompute) fun _ => hclose

/-- What the operations at the nodes of a tree respect: reads of its handles, stores to its targets
and writes. -/
structure Tree.NodesRespect (R : Machine δ → Machine κ → Prop) (t : Tree) : Prop where
  read : ∀ h ∈ t.handles, Respects R (Run.read h) (Run.read h)
  store : ∀ h ∈ t.targets, ∀ v, Respects R (Run.store h v) (Run.store h v)
  put : ∀ s, Respects R (Run.put s) (Run.put s)

namespace Tree

/-- **Two evaluations of a tree end alike** from related machines, if the operations at its nodes
respect the relation.  As the parts of the tree have the same results, both evaluations take the
same branch and stop at the same node. -/
theorem compute_respects (rounds : Nat) (t : Tree) (h : t.NodesRespect R) :
    Respects R (t.compute rounds) (t.compute rounds) :=
  t.compute_composed Respects.composed rounds h.read h.store h.put

/-- **Two interpretations end alike** under the same conditions, if the outputs are the same. -/
theorem interpret_respects (rounds : Nat) (t : Tree) (h : t.NodesRespect R)
    (hsame : ∀ {m m'}, R m m' → m.output = m'.output) :
    Respects R (t.interpret rounds) (t.interpret rounds) :=
  t.interpret_composed Respects.composed rounds (t.compute_respects rounds h)
    (Respects.close hsame)

end Tree
end ProcTree
