/-
# Static types predict evaluation

Types are read off the tree, and evaluation works on the kinds of values.  The two agree.

* `Tree.kind_of_compute`: a tree that is evaluated gives a value of its static type, and none when
  its static type is none.  This does not need the checker.
* `Tree.faults_of_compute`: evaluation of a tree that the checker accepts fails in three ways only
  (`Tree.Faults`): a division by zero, an ordering of two booleans, or an output that is full.

Both assume of the table what every table made by its operations has, and of the tree that its
handles come from that table.  The assumption lasts through a run because evaluation keeps the
table's shape (`Tree.compute_follows`).
-/
import ProcTree.Proofs.Evaluation.Frame
import ProcTree.Proofs.Operator

namespace ProcTree

/-- A refused write reports that the output is full. -/
theorem Output.write_error {o : Output} {s : String} {e : Error} (h : (o.write s).1 = .error e) :
    e = Output.overflow := by
  unfold Output.write at h
  simp only at h
  split at h
  · exact absurd h (by simp)
  · exact (Except.error.inj h).symm

namespace Tree

/-! ## 1. Values of the static type -/

/-- A statement gives no value. -/
theorem compute_statement {t : Tree} (ht : t.staticType = none) (rounds : Nat) :
    Gives (· = none) (t.compute rounds) := by
  cases t with
  | constant v => exact absurd ht (by simp [staticType])
  | reference h => exact absurd ht (by simp [staticType])
  | negation a => exact absurd ht (by simp [staticType])
  | binary op a b => exact absurd ht (Operator.resultTy_ne_none _ _ _)
  | assign h a =>
    rw [compute]
    exact Gives.bind fun _ => Gives.bind fun _ => Gives.bind fun _ => Gives.pure rfl
  | write a n =>
    rw [compute]
    refine Gives.bind fun _ => Gives.bind fun _ => Gives.bind fun _ => ?_
    split
    · exact Gives.bind fun _ => Gives.pure rfl
    · exact Gives.pure rfl
  | choice c a =>
    rw [compute]
    refine Gives.bind fun _ => Gives.bind fun _ => Gives.bind fun _ => ?_
    split
    · exact Gives.bind fun _ => Gives.pure rfl
    · exact Gives.pure rfl
  | choiceElse c a b =>
    rw [compute]
    refine Gives.bind fun _ => Gives.bind fun _ => Gives.bind fun _ => ?_
    split <;> exact Gives.bind fun _ => Gives.pure rfl
  | loop c a =>
    rw [compute]
    exact Gives.bind fun _ => Gives.pure rfl
  | block ts =>
    rw [compute]
    exact Gives.bind fun _ => Gives.pure rfl

/-- **Evaluation gives values of the static type.**  Only references look at the table: every
operator decides the kind of its result by itself. -/
theorem kind_of_compute {t : Tree} {rounds : Nat} {m m' : Machine} {r : Option Value}
    (hw : m.table.WellFormed) (hr : t.RegisteredIn m.table)
    (h : t.compute rounds m = .ok r m') : r.map Value.kind = t.staticType := by
  cases t with
  | constant v =>
    simp only [compute, pure_apply, EStateM.Result.ok.injEq] at h
    rw [← h.1]
    rfl
  | reference g =>
    simp only [compute, bind_eq_ok_iff, Run.read_apply, Run.ofExcept_eq_ok_iff, pure_apply,
      EStateM.Result.ok.injEq] at h
    obtain ⟨v, m₁, ⟨hv, -⟩, rfl, -⟩ := h
    obtain ⟨v', hv', hk⟩ := (hr g (reference_mem_handles g)).valueOf hw
    obtain rfl : v = v' := Except.ok.inj (hv.symm.trans hv')
    simp [staticType, hk]
  | negation a =>
    simp only [compute, bind_eq_ok_iff, pure_apply, EStateM.Result.ok.injEq] at h
    obtain ⟨_, _, -, _, _, -, _, _, -, rfl, -⟩ := h
    rfl
  | binary op a b =>
    simp only [compute, bind_eq_ok_iff, Run.ofExcept_eq_ok_iff, pure_apply,
      EStateM.Result.ok.injEq] at h
    obtain ⟨_, _, -, _, _, -, _, _, -, _, _, -, v, _, ⟨hv, -⟩, rfl, -⟩ := h
    exact Operator.kind_of_apply hv
  | _ =>
    rw [compute_statement rfl rounds m r m' h]
    rfl

/-! ## 2. What can still go wrong -/

/-- The failures that the checker does not rule out, each with the node of the tree where it
arises.  The node is met on a machine that follows the first one, with operands as given. -/
inductive Faults (rounds : Nat) (t : Tree) (m : Machine) : Error → Prop
  /-- A whole division whose right operand is zero. -/
  | division {d : WholeDivision} {a b : Tree} {i : Int64} {m₁ m₂ m₃ : Machine}
      (node : .binary (.wholeDivision d) a b ∈ t.subtrees) (met : m.Follows m₁)
      (left : a.compute rounds m₁ = .ok (some (.integer i)) m₂)
      (right : b.compute rounds m₂ = .ok (some (.integer 0)) m₃) :
      Faults rounds t m .divisionByZero
  /-- One of the four ordering relations between two booleans. -/
  | order {c : Comparison} {a b : Tree} {x y : Bool} {m₁ m₂ m₃ : Machine}
      (node : .binary (.comparison c) a b ∈ t.subtrees) (ordering : c.orders = true)
      (met : m.Follows m₁)
      (left : a.compute rounds m₁ = .ok (some (.boolean x)) m₂)
      (right : b.compute rounds m₂ = .ok (some (.boolean y)) m₃) :
      Faults rounds t m (.unsupportedOperation c.symbol Kind.boolean.name)
  /-- A text that the output does not take. -/
  | output {a : Tree} {newline : Bool} {s message : String} {m₁ : Machine}
      (node : .write a newline ∈ t.subtrees) (met : m.Follows m₁)
      (refused : (m₁.output.write s).1 = .error (.io message)) :
      Faults rounds t m (.io message)

namespace Faults

variable {rounds : Nat} {m m₁ : Machine} {e : Error}

/-- A fault of a child is a fault of the tree, met later. -/
theorem of_child {c t : Tree} (hc : c ∈ t.children) (hm : m.Follows m₁)
    (h : Faults rounds c m₁ e) : Faults rounds t m e := by
  cases h with
  | division node met left right =>
    exact .division (subtrees_subset_of_child hc node) (hm.trans met) left right
  | order node ordering met left right =>
    exact .order (subtrees_subset_of_child hc node) ordering (hm.trans met) left right
  | output node met refused =>
    exact .output (subtrees_subset_of_child hc node) (hm.trans met) refused

/-- A fault of an operator on the values of its operands is a fault of its node. -/
theorem of_operator {op : Operator} {a b : Tree} {x y : Value} {m₂ m₃ : Machine}
    (ha : a.compute rounds m₁ = .ok (some x) m₂) (hb : b.compute rounds m₂ = .ok (some y) m₃)
    (h : op.Fails x y e) : Faults rounds (.binary op a b) m₁ e := by
  have node := self_mem_subtrees (.binary op a b)
  cases h with
  | division d i => exact .division node (.refl m₁) ha hb
  | order c p q ordering => exact .order node ordering (.refl m₁) ha hb

end Faults

/-- The failure of a write at a node of the tree. -/
theorem Faults.of_put {rounds : Nat} {t a : Tree} {newline : Bool} {s : String}
    {m m₁ m₂ : Machine} {e : Error} (node : .write a newline ∈ t.subtrees) (met : m.Follows m₁)
    (h : Run.put s m₁ = .error (.failed e) m₂) : Faults rounds t m e := by
  rw [Run.put_apply] at h
  cases hw : (m₁.output.write s).1 with
  | ok u => simp [hw] at h
  | error e' =>
    simp only [hw, EStateM.Result.error.injEq, Stop.failed.injEq] at h
    obtain rfl : e' = e := h.1
    have he := Output.write_error hw
    subst he
    exact .output node met hw

/-! ## 3. Accepted trees -/

section

variable {rounds : Nat} {m m' : Machine}

/-- **An operand with a static type** stops the construct around it, or gives it a value of that
type.  The construct never misses its value. -/
theorem operand_error {β : Type} {construct : String} {a : Tree} {rest : Value → Run β}
    {stop : Stop} (hw : m.table.WellFormed) (hr : a.RegisteredIn m.table)
    (hty : a.staticType ≠ none)
    (h : (a.compute rounds >>= fun r => Run.needed construct r >>= rest) m = .error stop m') :
    a.compute rounds m = .error stop m' ∨
      ∃ v m₁, a.compute rounds m = .ok (some v) m₁ ∧ some v.kind = a.staticType ∧
        m.Follows m₁ ∧ rest v m₁ = .error stop m' := by
  rcases bind_eq_error_iff.mp h with h | ⟨r, m₁, hok, h⟩
  · exact .inl h
  · have hkind := kind_of_compute hw hr hok
    rcases bind_eq_error_iff.mp h with h | ⟨v, m₂, hv, h⟩
    · obtain ⟨rfl, -, -⟩ := Run.needed_eq_error_iff.mp h
      exact absurd hkind.symm hty
    · obtain ⟨rfl, rfl⟩ := Run.needed_eq_ok_iff.mp hv
      exact .inr ⟨v, m₂, hok, hkind, (compute_follows rounds a).of_ok hok, h⟩

/-- **A boolean operand** stops the construct around it, or gives it a boolean. -/
theorem condition_error {β : Type} {construct : String} {c : Tree} {rest : Bool → Run β}
    {stop : Stop} (hw : m.table.WellFormed) (hr : c.RegisteredIn m.table)
    (hty : c.staticType = some .boolean)
    (h : (c.compute rounds >>= fun r => Run.needed construct r >>= fun v =>
      Run.ofExcept v.asBoolean >>= rest) m = .error stop m') :
    c.compute rounds m = .error stop m' ∨
      ∃ b m₁, c.compute rounds m = .ok (some (.boolean b)) m₁ ∧ m.Follows m₁ ∧
        rest b m₁ = .error stop m' := by
  rcases operand_error hw hr (by simp [hty]) h with h | ⟨v, m₁, hok, hv, hm, h⟩
  · exact .inl h
  · obtain ⟨b, rfl⟩ := Value.kind_eq_boolean (Option.some.inj (hv.trans hty))
    exact .inr ⟨b, m₁, hok, hm, h⟩

/-- A run that only gives a result does not stop. -/
theorem not_stopped_of_pure {α : Type} {r : α} {stop : Stop}
    (h : (pure r : Run α) m = .error stop m') : False := by
  simp at h

/-- What stops before only giving a result stopped by itself. -/
theorem stopped_of_bind_pure {α β : Type} {x : Run α} {f : α → β} {stop : Stop}
    (h : (x >>= fun a => pure (f a)) m = .error stop m') : x m = .error stop m' := by
  rcases bind_eq_error_iff.mp h with h | ⟨_, _, -, h⟩
  · exact h
  · exact (not_stopped_of_pure h).elim

/-- A write follows the machine. -/
theorem follows_of_put {s : String} {u : Unit} (h : Run.put s m = .ok u m') : m.Follows m' := by
  rw [Run.put_apply] at h
  split at h
  · cases h
    exact ⟨.refl _, id⟩
  · exact absurd h (by simp)

end

/-- If the tree is accepted, it fails only in the ways listed. -/
def OnlyFaults (rounds : Nat) (t : Tree) : Prop := ∀ ⦃m m' : Machine⦄ ⦃e : Error⦄,
  m.table.WellFormed → t.RegisteredIn m.table → t.check = .ok () →
    t.compute rounds m = .error (.failed e) m' → t.Faults rounds m e

namespace OnlyFaults

variable {rounds : Nat} {m m₁ m' : Machine} {e : Error} {g : Handle} {a b c t : Tree}

/-- A failure of a child, wherever the child is met, is a fault of the tree. -/
theorem child (ih : OnlyFaults rounds c) (hct : c ∈ t.children) (hw : m.table.WellFormed)
    (hr : t.RegisteredIn m.table) (hc : c.check = .ok ()) (hm : m.Follows m₁)
    (h : c.compute rounds m₁ = .error (.failed e) m') : t.Faults rounds m e :=
  (ih (hm.wellFormed hw) (hm.registeredIn (hr.of_child hct)) hc h).of_child hct hm

/-- A statement that is run for its effect. -/
theorem statement (ih : OnlyFaults rounds c) (hct : c ∈ t.children) (hw : m.table.WellFormed)
    (hr : t.RegisteredIn m.table) (hc : c.check = .ok ()) (hm : m.Follows m₁)
    (h : (discard (c.compute rounds) : Run Unit) m₁ = .error (.failed e) m') :
    t.Faults rounds m e :=
  ih.child hct hw hr hc hm (discard_eq_error_iff.mp h)

theorem reference : OnlyFaults rounds (.reference g) := by
  intro m m' e hw hr _ h
  obtain ⟨v, hv, -⟩ := (hr g (reference_mem_handles g)).valueOf hw
  have hread : Run.read g m = .ok v m := by rw [Run.read_apply, hv]; rfl
  rw [compute, bind_of_ok hread] at h
  exact (not_stopped_of_pure h).elim

theorem negation (iha : OnlyFaults rounds a) : OnlyFaults rounds (.negation a) := by
  intro m m' e hw hr hc h
  have ha : a ∈ (Tree.negation a).children := by simp [children]
  obtain ⟨hca, hty⟩ := check_negation_iff.mp hc
  rw [compute] at h
  rcases condition_error hw (hr.of_child ha) hty h with h | ⟨b, m₁, -, -, h⟩
  · exact iha.child ha hw hr hca (.refl m) h
  · exact (not_stopped_of_pure h).elim

theorem binary {op : Operator} (iha : OnlyFaults rounds a) (ihb : OnlyFaults rounds b) :
    OnlyFaults rounds (.binary op a b) := by
  intro m m' e hw hr hc h
  have ha : a ∈ (Tree.binary op a b).children := by simp [children]
  have hb : b ∈ (Tree.binary op a b).children := by simp [children]
  obtain ⟨hca, hcb, hop⟩ := check_binary_iff.mp hc
  obtain ⟨-, hta, htb⟩ := Operator.takes_of_check hop
  rw [compute] at h
  rcases operand_error hw (hr.of_child ha) hta h with h | ⟨x, m₁, hx, hkx, hm, h⟩
  · exact iha.child ha hw hr hca (.refl m) h
  rcases operand_error (hm.wellFormed hw) (hm.registeredIn (hr.of_child hb)) htb h with
    h | ⟨y, m₂, hy, hky, -, h⟩
  · exact ihb.child hb hw hr hcb hm h
  obtain ⟨e', happ, he, -⟩ := Run.ofExcept_eq_error_iff.mp (stopped_of_bind_pure h)
  obtain rfl : e = e' := Stop.failed.inj he
  rw [← hkx, ← hky] at happ hop
  exact .of_operator hx hy (Operator.apply_error hop happ)

theorem assign (iha : OnlyFaults rounds a) : OnlyFaults rounds (.assign g a) := by
  intro m m' e hw hr hc h
  have ha : a ∈ (Tree.assign g a).children := by simp [children]
  obtain ⟨hca, hacc⟩ := check_assign_iff.mp hc
  have hty : a.staticType ≠ none := by
    intro hn
    simp [hn, Ty.accepts] at hacc
  rw [compute] at h
  rcases operand_error hw (hr.of_child ha) hty h with h | ⟨v, m₁, -, hv, hm, h⟩
  · exact iha.child ha hw hr hca (.refl m) h
  · have hk : (v.promote g.kind).kind = g.kind := Value.kind_promote (hv ▸ hacc)
    have hg : m₁.table.Registers g := hm.shape.registers.mpr hr.target
    have hstore := stopped_of_bind_pure h
    rw [Run.store_apply, hg.assign hk] at hstore
    exact absurd hstore (by simp)

theorem write {newline : Bool} (iha : OnlyFaults rounds a) :
    OnlyFaults rounds (.write a newline) := by
  intro m m' e hw hr hc h
  have ha : a ∈ (Tree.write a newline).children := by simp [children]
  have node := self_mem_subtrees (.write a newline)
  obtain ⟨hca, hty⟩ := check_write_iff.mp hc
  rw [compute] at h
  rcases operand_error hw (hr.of_child ha) hty h with h | ⟨v, m₁, -, -, hm, h⟩
  · exact iha.child ha hw hr hca (.refl m) h
  rcases bind_eq_error_iff.mp h with h | ⟨_, m₂, hput, h⟩
  · exact .of_put node hm h
  cases newline with
  | false => exact (not_stopped_of_pure h).elim
  | true => exact .of_put node (hm.trans (follows_of_put hput)) (stopped_of_bind_pure h)

theorem choice (ihc : OnlyFaults rounds c) (iha : OnlyFaults rounds a) :
    OnlyFaults rounds (.choice c a) := by
  intro m m' e hw hr hc h
  have hcond : c ∈ (Tree.choice c a).children := by simp [children]
  have ha : a ∈ (Tree.choice c a).children := by simp [children]
  obtain ⟨hcc, hty, hca⟩ := check_choice_iff.mp hc
  rw [compute] at h
  rcases condition_error hw (hr.of_child hcond) hty h with h | ⟨p, m₁, -, hm, h⟩
  · exact ihc.child hcond hw hr hcc (.refl m) h
  cases p with
  | false => exact (not_stopped_of_pure h).elim
  | true => exact iha.statement ha hw hr hca hm (stopped_of_bind_pure h)

theorem choiceElse (ihc : OnlyFaults rounds c) (iha : OnlyFaults rounds a)
    (ihb : OnlyFaults rounds b) : OnlyFaults rounds (.choiceElse c a b) := by
  intro m m' e hw hr hc h
  have hcond : c ∈ (Tree.choiceElse c a b).children := by simp [children]
  have ha : a ∈ (Tree.choiceElse c a b).children := by simp [children]
  have hb : b ∈ (Tree.choiceElse c a b).children := by simp [children]
  obtain ⟨hcc, hty, hca, hcb⟩ := check_choiceElse_iff.mp hc
  rw [compute] at h
  rcases condition_error hw (hr.of_child hcond) hty h with h | ⟨p, m₁, -, hm, h⟩
  · exact ihc.child hcond hw hr hcc (.refl m) h
  cases p with
  | false => exact ihb.statement hb hw hr hcb hm (stopped_of_bind_pure h)
  | true => exact iha.statement ha hw hr hca hm (stopped_of_bind_pure h)

/-- The induction is on the rounds that are left; the machine of each follows the first one. -/
theorem loop (ihc : OnlyFaults rounds c) (iha : OnlyFaults rounds a) :
    OnlyFaults rounds (.loop c a) := by
  intro m m' e hw hr hc h
  have hcond : c ∈ (Tree.loop c a).children := by simp [children]
  have ha : a ∈ (Tree.loop c a).children := by simp [children]
  obtain ⟨hcc, hty, hca⟩ := check_loop_iff.mp hc
  have rounds_left : ∀ k m₁, m.Follows m₁ →
      Run.repeatWhile (do
        let v ← Run.needed "while" (← c.compute rounds)
        Run.ofExcept v.asBoolean) (discard (a.compute rounds)) k m₁ = .error (.failed e) m' →
      (Tree.loop c a).Faults rounds m e := by
    intro k
    induction k with
    | zero =>
      intro m₁ _ h
      exact absurd h (by simp [Run.repeatWhile])
    | succ k ih =>
      intro m₁ hm h
      rw [Run.repeatWhile, bind_assoc] at h
      simp only [bind_assoc] at h
      rcases condition_error (hm.wellFormed hw) (hm.registeredIn (hr.of_child hcond)) hty h with
        h | ⟨p, m₂, -, hm₂, h⟩
      · exact ihc.child hcond hw hr hcc hm h
      cases p with
      | false => exact (not_stopped_of_pure h).elim
      | true =>
        have hm₂ := hm.trans hm₂
        rcases bind_eq_error_iff.mp h with h | ⟨_, m₃, hbody, h⟩
        · exact iha.statement ha hw hr hca hm₂ h
        · obtain ⟨r, hbody⟩ := discard_eq_ok_iff.mp hbody
          exact ih m₃ (hm₂.trans ((compute_follows rounds a).of_ok hbody)) h
  rw [compute] at h
  exact rounds_left rounds m (.refl m) (stopped_of_bind_pure h)

/-- The induction is on the statements that are left. -/
theorem block {ts : List Tree} (ih : ∀ t ∈ ts, OnlyFaults rounds t) :
    OnlyFaults rounds (.block ts) := by
  intro m m' e hw hr hc h
  have all : ∀ us, us ⊆ ts → ∀ m₁, m.Follows m₁ →
      computeAll rounds us m₁ = .error (.failed e) m' → (Tree.block ts).Faults rounds m e := by
    intro us
    induction us with
    | nil =>
      intro _ m₁ _ h
      rw [computeAll] at h
      exact (not_stopped_of_pure h).elim
    | cons u us ihus =>
      intro hus m₁ hm h
      have hu : u ∈ ts := hus List.mem_cons_self
      rw [computeAll] at h
      rcases bind_eq_error_iff.mp h with h | ⟨_, m₂, hok, h⟩
      · exact (ih u hu).statement (t := .block ts) hu hw hr (check_block_iff.mp hc u hu) hm h
      · obtain ⟨r, hok⟩ := discard_eq_ok_iff.mp hok
        exact ihus (List.subset_of_cons_subset hus) m₂
          (hm.trans ((compute_follows rounds u).of_ok hok)) h
  rw [compute] at h
  exact all ts (List.Subset.refl ts) m (.refl m) (stopped_of_bind_pure h)

end OnlyFaults

/-- **Accepted trees fail in the ways listed only.** -/
theorem faults_of_compute (rounds : Nat) (t : Tree) : OnlyFaults rounds t := by
  induction t using Tree.ind with
  | constant v =>
    intro m m' e _ _ _ h
    rw [compute] at h
    exact (not_stopped_of_pure h).elim
  | reference g => exact OnlyFaults.reference
  | negation a iha => exact OnlyFaults.negation iha
  | binary op a b iha ihb => exact OnlyFaults.binary iha ihb
  | assign g a iha => exact OnlyFaults.assign iha
  | write a newline iha => exact OnlyFaults.write iha
  | choice c a ihc iha => exact OnlyFaults.choice ihc iha
  | choiceElse c a b ihc iha ihb => exact OnlyFaults.choiceElse ihc iha ihb
  | loop c a ihc iha => exact OnlyFaults.loop ihc iha
  | block ts ih => exact OnlyFaults.block ih

/-! ## 4. Soundness -/

/-- **Type soundness.**  Take a tree whose handles the table registers with their kinds.  Checked
or not, the value that evaluation gives has the tree's static type, and there is none exactly when
the static type is none.  If the checker accepts the tree, then a run of any length fails only by
a whole division by zero, an ordering of two booleans or a refused write, at a node of the tree;
asking a value for another kind, missing a value, refusing an assignment and missing a variable do
not happen. -/
theorem compute_type_sound (t : Tree) (rounds : Nat) (m : Machine)
    (hw : m.table.WellFormed) (hr : t.RegisteredIn m.table) :
    (∀ r m', t.compute rounds m = .ok r m' → r.map Value.kind = t.staticType) ∧
      (t.check = .ok () →
        ∀ e m', t.compute rounds m = .error (.failed e) m' → t.Faults rounds m e) :=
  ⟨fun _ _ h => kind_of_compute hw hr h, fun hc _ _ h => faults_of_compute rounds t hw hr hc h⟩

/-- The theorem at work: while `d` is below one, half of `x` goes into a real variable, and then
`x` is divided by `d`.  The first round fails, with zero for `d`. -/
theorem compute_type_sound_division :
    let x : Handle := ⟨"x", .integer⟩
    let d : Handle := ⟨"d", .integer⟩
    let y : Handle := ⟨"y", .real⟩
    let half : Tree := .binary .realDivision (.reference x) (.constant (.integer 2))
    let t : Tree := .loop (.binary (.comparison .less) (.reference d) (.constant (.integer 1)))
      (.block [.assign y half,
        .write (.binary (.wholeDivision .quotient) (.reference x) (.reference d)) true])
    let m : Machine := ⟨⟨[⟨"x", .integer, .integer 5⟩, ⟨"d", .integer, .integer 0⟩,
      ⟨"y", .real, .real 0⟩], "_tempVar", 0⟩, .unbounded⟩
    (∃ r m', half.compute 3 m = .ok r m' ∧ r.map Value.kind = some .real) ∧
      t.check = .ok () ∧
      ∃ m', t.compute 3 m = .error (.failed .divisionByZero) m' ∧
        t.Faults 3 m .divisionByZero := by
  intro x d y half t m
  have hw : m.table.WellFormed := ⟨by decide, by decide⟩
  have hr : t.RegisteredIn m.table := by
    intro h hh
    have hx : ∀ h ∈ t.handles, h = x ∨ h = d ∨ h = y := by decide
    rcases hx h hh with rfl | rfl | rfl <;> rfl
  have hrhalf : half.RegisteredIn m.table := by
    intro h hh
    obtain rfl : h = x := by simpa [half, handles, subtrees, rootHandles] using hh
    rfl
  obtain ⟨r, m', h⟩ : ∃ r m', half.compute 3 m = .ok r m' := ⟨_, _, rfl⟩
  obtain ⟨m'', h'⟩ : ∃ m'', t.compute 3 m = .error (.failed .divisionByZero) m'' := ⟨_, rfl⟩
  have hc : t.check = .ok () := rfl
  exact ⟨⟨r, m', h, (compute_type_sound half 3 m hw hrhalf).1 r m' h⟩, hc,
    m'', h', (compute_type_sound t 3 m hw hr).2 hc _ m'' h'⟩

end Tree
end ProcTree
