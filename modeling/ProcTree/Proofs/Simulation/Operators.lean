/-
# Executing the code of an operator

Once the operands of an operator are in variables, lowering emits conversions for mixed numbers and
then the operator's own instructions.  Executing them leaves the value of the operator in the new
temporary, or fails as the operator fails (`Lowering.combined_delivers`).

The temporaries of the conversions and of the result are new, so everything that was registered
before keeps its value.  In particular the copy that an accumulation starts with does not clobber
the right operand.
-/
import ProcTree.Proofs.Execution
import ProcTree.Proofs.Operator

namespace ProcTree

/-! ## 1. Runs that only fill new variables -/

/-- The second machine is reached from the first without any output, and the variables of these
names keep their values. -/
structure Leads (code : List Instruction) (names : List String) (s s' : Snapshot) : Prop where
  run : ∃ n, Reaches code n s s'
  output : s'.output = s.output
  memory : ∀ name ∈ names, s'.memory name = s.memory name

namespace Leads

variable {code : List Instruction} {names names' : List String} {s s₁ s₂ : Snapshot}

theorem refl (s : Snapshot) : Leads code names s s := ⟨⟨0, .refl s⟩, rfl, fun _ _ => rfl⟩

theorem trans (h : Leads code names s s₁) (h' : Leads code names' s₁ s₂)
    (hsub : names ⊆ names') : Leads code names s s₂ := by
  obtain ⟨n, hn⟩ := h.run
  obtain ⟨n', hn'⟩ := h'.run
  refine ⟨⟨n + n', hn.trans hn'⟩, h'.output.trans h.output, ?_⟩
  intro name hname
  rw [h'.memory name (hsub hname), h.memory name hname]

theorem mono (h : Leads code names' s s₁) (hsub : names ⊆ names') : Leads code names s s₁ :=
  ⟨h.run, h.output, fun name hname => h.memory name (hsub hname)⟩

/-- One store into another variable. -/
theorem filled {d : Handle} {v : Value} (h : step code s = .to (s.filled d v))
    (hd : d.name ∉ names) : Leads code names s (s.filled d v) := by
  refine ⟨⟨1, .single h⟩, rfl, ?_⟩
  intro name hname
  have hne : name ≠ d.name := fun e => hd (e ▸ hname)
  exact Memory.set_other s.memory v hne

theorem fits {vs : List Variable} (h : Leads code names s s₁) (hs : s.Fits vs code) :
    s₁.Fits vs code := by
  obtain ⟨n, hn⟩ := h.run
  exact hs.reaches hn

theorem get (h : Leads code names s s₁) {a : Handle} (ha : a.name ∈ names) :
    s₁.get a = s.get a := h.memory a.name ha

end Leads

/-- From this machine on, the code puts the value into the variable and arrives at its end, or it
fails with the error. -/
def Delivers (code : List Instruction) (names : List String) (s : Snapshot) (stop : Nat)
    (h : Handle) : Except Error Value → Prop
  | .ok v => ∃ s', Leads code names s s' ∧ s'.next = stop ∧ s'.get h = some v
  | .error e => ∃ s', Leads code names s s' ∧ step code s' = .failed e s'

/-- What leads on to a delivery delivers. -/
theorem Leads.delivers {code : List Instruction} {names names' : List String} {s s₁ : Snapshot}
    {stop : Nat} {h : Handle} {out : Except Error Value} (hl : Leads code names s s₁)
    (hd : Delivers code names' s₁ stop h out) (hsub : names ⊆ names') :
    Delivers code names s stop h out := by
  cases out with
  | ok v =>
    obtain ⟨s', hl', hn, hv⟩ := hd
    exact ⟨s', hl.trans hl' hsub, hn, hv⟩
  | error e =>
    obtain ⟨s', hl', hs⟩ := hd
    exact ⟨s', hl.trans hl' hsub, hs⟩

/-- An instruction that stores a result delivers it. -/
theorem Delivers.of_fill {code : List Instruction} {names : List String} {s : Snapshot}
    {d : Handle} {out : Except Error Value} (h : step code s = s.fill d (some out))
    (hdecl : (s.memory d.name).isSome) (hd : d.name ∉ names) :
    Delivers code names s (s.next + 1) d out := by
  cases out with
  | ok v =>
    rw [Snapshot.fill, if_pos hdecl] at h
    exact ⟨_, .filled h hd, rfl, Memory.set_same s.memory d.name v⟩
  | error e => exact ⟨s, .refl s, h⟩

/-! ## 2. Code inside finished code -/

namespace Builder

variable {free : String → Prop} {b B : Builder} {s : Snapshot}

/-- The machine at the last instruction of a builder executes it. -/
theorem step_of_push {i : Instruction} (hB : Grows free (b.push i) B)
    (hn : s.next = b.code.length) : step B.code s = i.exec B.code s := by
  obtain ⟨rest, hrest⟩ := hB.code_prefix
  have hi : B.code[b.code.length]? = some i := by
    rw [← hrest, code_push, List.append_assoc, List.getElem?_append_right (Nat.le_refl _)]
    simp
  rw [step, hn, hi]

/-- Registered variables have values throughout. -/
theorem isSome_of_mem (hB : Grows free b B) (hs : s.Fits B.table.entries B.code) (name : String)
    (hm : name ∈ b.table.names) : (s.memory name).isSome := by
  obtain ⟨v, hv, rfl⟩ := List.mem_map.mp (hB.names hm)
  exact hs.declared v hv

end Builder

/-! ## 3. Opcodes on matched values -/

/-- Two numbers, the integer one as a real when the other is real. -/
def Value.matched : Value → Value → Value × Value
  | .integer i, .real y => (.real (widen i), .real y)
  | .real x, .integer j => (.real x, .real (widen j))
  | x, y => (x, y)

theorem Value.matched_same {x y : Value} (h : ¬ (x.kind = .integer ∧ y.kind = .real))
    (h' : ¬ (x.kind = .real ∧ y.kind = .integer)) : x.matched y = (x, y) := by
  unfold Value.matched
  split
  · exact absurd ⟨rfl, rfl⟩ h
  · exact absurd ⟨rfl, rfl⟩ h'
  · rfl

namespace Opcode

variable {x y : Value}

/-- A comparison of matched numbers is the comparison of the operands. -/
theorem compare_matched {c : Comparison} {n : Numeric}
    (hc : Operator.check (.comparison c) (some x.kind) (some y.kind) = .ok ())
    (hn : Numeric.ofKind? (x.matched y).1.kind = some n) :
    (compare n c).ofTwo (x.matched y).1 (x.matched y).2 =
      some ((c.apply x y).map .boolean) := by
  obtain ⟨ht, -, -⟩ := Operator.takes_of_check hc
  cases x with
  | boolean p => simp [Value.matched, Value.kind, Numeric.ofKind?] at hn
  | string t => simp [Value.matched, Value.kind, Numeric.ofKind?] at hn
  | integer i =>
    cases y with
    | integer j =>
      cases hn
      rfl
    | real r =>
      cases hn
      rfl
    | _ => simp [Operator.takes, Ty.isNumeric, Value.kind, Kind.isNumeric] at ht
  | real r =>
    cases y with
    | integer j =>
      cases hn
      rfl
    | real q =>
      cases hn
      rfl
    | _ => simp [Operator.takes, Ty.isNumeric, Value.kind, Kind.isNumeric] at ht

/-- An accumulation of matched numbers, in the version for the kind of the result, is the
arithmetic of the operands. -/
theorem accumulate_matched {a : Arithmetic} {k : Kind}
    (hc : Operator.check (.arithmetic a) (some x.kind) (some y.kind) = .ok ())
    (hk : Operator.resultTy (.arithmetic a) (some x.kind) (some y.kind) = some k) :
    (accumulate (Lowering.versionFor k) a).ofTwo (x.matched y).1 (x.matched y).2 =
      some (Operator.apply (.arithmetic a) (some k) x y) := by
  obtain ⟨ht, -, -⟩ := Operator.takes_of_check hc
  cases x with
  | integer i =>
    cases y with
    | integer j =>
      cases hk
      rfl
    | real r =>
      cases hk
      rfl
    | _ => simp [Operator.takes, Ty.isNumeric, Value.kind, Kind.isNumeric] at ht
  | real r =>
    cases y with
    | integer j =>
      cases hk
      rfl
    | real q =>
      cases hk
      rfl
    | _ => simp [Operator.takes, Ty.isNumeric, Value.kind, Kind.isNumeric] at ht
  | _ => simp [Operator.takes, Ty.isNumeric, Value.kind, Kind.isNumeric] at ht

end Opcode

/-! ## 4. Conversions -/

namespace Lowering
open Builder

variable {free : String → Prop} {b b' B : Builder} {s : Snapshot} {left right : Handle}
  {x y : Value}

/-- **A conversion leaves the operand as a real**, in a new temporary if it was an integer. -/
theorem asReal_leads {h h' : Handle} {r : Float} (hrun : asReal h b = .ok h' b')
    (hB : Grows free b' B) (hs : s.Fits B.table.entries B.code) (hn : s.next = b.code.length)
    (hx : s.get h = some x) (hk : x.kind = h.kind) (hr : x.asReal = .ok r) :
    ∃ s', Leads B.code b.table.names s s' ∧ s'.next = b'.code.length ∧
      s'.get h' = some (.real r) ∧ h'.kind = .real ∧ (h' = h ∨ h'.name ∉ b.table.names) := by
  rw [asReal_apply] at hrun
  split at hrun
  · next hi =>
    cases hrun
    obtain ⟨i, rfl⟩ := Value.kind_eq_integer (hk.trans hi)
    cases hr
    have hdecl := isSome_of_mem hB hs b.freshName (by simp [freshName])
    have hstep : step B.code s = .to (s.filled ⟨b.freshName, .real⟩ (.real (widen i))) := by
      rw [step_of_push hB hn]
      simp [Instruction.exec, hx, Opcode.ofOne, Snapshot.fill, hdecl]
    refine ⟨_, .filled hstep b.table.freshName_not_mem, ?_, Memory.set_same _ _ _, rfl,
      .inr b.table.freshName_not_mem⟩
    simp [hn]
  · next hi =>
    cases hrun
    have hreal : x = .real r := by
      cases x with
      | integer i => exact absurd hk.symm hi
      | real r' =>
        cases hr
        rfl
      | boolean p => cases hr
      | string t => cases hr
    subst hreal
    exact ⟨s, .refl s, hn, hx, hk.symm, .inl rfl⟩

/-- What a conversion gives is registered. -/
theorem asReal_mem_names {h h' : Handle} (hrun : asReal h b = .ok h' b')
    (hm : h.name ∈ b.table.names) : h'.name ∈ b'.table.names := by
  rw [asReal_apply] at hrun
  split at hrun
  · cases hrun
    simp [freshName]
  · cases hrun
    exact hm

theorem matched_left (h : left.kind = .integer ∧ right.kind = .real) :
    matched left right = (do return (← asReal left, right)) := by simp only [matched, h.1, h.2]

theorem matched_right (h : left.kind = .real ∧ right.kind = .integer) :
    matched left right = (do return (left, ← asReal right)) := by simp only [matched, h.1, h.2]

theorem matched_same (h : ¬ (left.kind = .integer ∧ right.kind = .real))
    (h' : ¬ (left.kind = .real ∧ right.kind = .integer)) :
    matched left right = pure (left, right) := by
  unfold matched
  split
  · next hl hr => exact absurd ⟨hl, hr⟩ h
  · next hl hr => exact absurd ⟨hl, hr⟩ h'
  · rfl

/-- **Mixed operands are converted**, and others are left.  What the right operand becomes is the
operand itself or a new variable. -/
theorem matched_leads {p : Handle × Handle} (hrun : matched left right b = .ok p b')
    (hB : Grows free b' B) (hs : s.Fits B.table.entries B.code) (hn : s.next = b.code.length)
    (hl : left.name ∈ b.table.names) (hr : right.name ∈ b.table.names)
    (hx : s.get left = some x) (hy : s.get right = some y) (hkx : x.kind = left.kind)
    (hky : y.kind = right.kind) :
    ∃ s', Leads B.code b.table.names s s' ∧ s'.next = b'.code.length ∧
      s'.get p.1 = some (x.matched y).1 ∧ s'.get p.2 = some (x.matched y).2 ∧
      p.1.kind = (x.matched y).1.kind ∧
      (p.2 = right ∨ p.2.name ∉ b.table.names) := by
  by_cases hmix : left.kind = .integer ∧ right.kind = .real
  · rw [matched_left hmix] at hrun
    obtain ⟨h', b₁, ha, hp⟩ := bind_eq_ok_iff.mp hrun
    obtain ⟨rfl, rfl⟩ := pure_eq_ok_iff.mp hp
    obtain ⟨i, rfl⟩ := Value.kind_eq_integer (hkx.trans hmix.1)
    obtain ⟨r, rfl⟩ := Value.kind_eq_real (hky.trans hmix.2)
    obtain ⟨s', hlead, hn', hv, hkind, -⟩ := asReal_leads ha hB hs hn hx hkx rfl
    exact ⟨s', hlead, hn', hv, (hlead.get hr).trans hy, hkind, .inl rfl⟩
  by_cases hmix' : left.kind = .real ∧ right.kind = .integer
  · rw [matched_right hmix'] at hrun
    obtain ⟨h', b₁, ha, hp⟩ := bind_eq_ok_iff.mp hrun
    obtain ⟨rfl, rfl⟩ := pure_eq_ok_iff.mp hp
    obtain ⟨r, rfl⟩ := Value.kind_eq_real (hkx.trans hmix'.1)
    obtain ⟨j, rfl⟩ := Value.kind_eq_integer (hky.trans hmix'.2)
    obtain ⟨s', hlead, hn', hv, -, hnew⟩ := asReal_leads ha hB hs hn hy hky rfl
    exact ⟨s', hlead, hn', (hlead.get hl).trans hx, hv, hmix'.1, hnew⟩
  · rw [matched_same hmix hmix'] at hrun
    obtain ⟨rfl, rfl⟩ := pure_eq_ok_iff.mp hrun
    rw [Value.matched_same (by rwa [hkx, hky]) (by rwa [hkx, hky])]
    exact ⟨s, .refl s, hn, hx, hy, hkx.symm, .inl rfl⟩

/-- The last instruction of an operator, with three operands. -/
theorem delivers_three {names : List String} {o : Opcode} {result : Handle}
    {out : Except Error Value} (fits : (Operands.three result left right).shape = o.shape)
    (hB : Grows free (b.push ⟨o, .three result left right, none, fits⟩) B)
    (hn : s.next = b.code.length) (hdecl : (s.memory result.name).isSome)
    (hnew : result.name ∉ names) (hx : s.get left = some x) (hy : s.get right = some y)
    (hout : o.ofTwo x y = some out) :
    Delivers B.code names s (b.code.length + 1) result out := by
  have hstep : step B.code s = s.fill result (some out) := by
    rw [step_of_push hB hn]
    simp [Instruction.exec, hx, hy, hout]
  exact hn ▸ Delivers.of_fill hstep hdecl hnew

/-! ## 5. Operators -/

/-- The machine stands before the code of an operator: its operands are variables that hold the
values, and its result is a declared variable, but not among those that keep their values. -/
structure Poised (free : String → Prop) (names : List String) (b B : Builder) (s : Snapshot)
    (result left right : Handle) (x y : Value) : Prop where
  grows : Grows free b B
  fits : s.Fits B.table.entries B.code
  next : s.next = b.code.length
  result_free : free result.name
  result_mem : result.name ∈ b.table.names
  result_new : result.name ∉ names
  kept : names ⊆ b.table.names
  left_mem : left.name ∈ names
  right_mem : right.name ∈ names
  left_value : s.get left = some x
  right_value : s.get right = some y
  left_kind : x.kind = left.kind
  right_kind : y.kind = right.kind

namespace Poised

variable {names : List String} {result : Handle}

/-- One more instruction, which writes the result. -/
theorem push (h : Poised free names b B s result left right x y) {b₁ : Builder} {i : Instruction}
    (hi : i.destination? = some result) : Grows free b₁ (b₁.push i) := by
  refine Grows.push b₁ fun d hd => ?_
  obtain rfl := Option.some.inj (hi.symm.trans hd)
  exact h.result_free

/-- The result has some value, whatever was executed before it is filled. -/
theorem declared (h : Poised free names b B s result left right x y) {names' : List String}
    {s' : Snapshot} (hlead : Leads B.code names' s s') : (s'.memory result.name).isSome :=
  isSome_of_mem h.grows (hlead.fits h.fits) result.name h.result_mem

/-- The result is declared at the start. -/
theorem declared_start (h : Poised free names b B s result left right x y) :
    (s.memory result.name).isSome :=
  h.declared (Leads.refl s : Leads B.code names s s)

/-- What matching the operands leads to. -/
theorem matched (h : Poised free names b B s result left right x y) {p : Handle × Handle}
    (hrun : Lowering.matched left right b = .ok p b') (hB : Grows free b' B) :
    ∃ s', Leads B.code b.table.names s s' ∧ s'.next = b'.code.length ∧
      s'.get p.1 = some (x.matched y).1 ∧ s'.get p.2 = some (x.matched y).2 ∧
      p.1.kind = (x.matched y).1.kind ∧ (p.2 = right ∨ p.2.name ∉ b.table.names) :=
  matched_leads hrun hB h.fits h.next (h.kept h.left_mem) (h.kept h.right_mem) h.left_value
    h.right_value h.left_kind h.right_kind

theorem comparison {c : Comparison} (h : Poised free names b B s result left right x y)
    (hrun : apply (.comparison c) result left right b = .ok () b') (hB : Grows free b' B)
    (hc : Operator.check (.comparison c) (some x.kind) (some y.kind) = .ok ()) :
    Delivers B.code names s b'.code.length result
      (Operator.apply (.comparison c) (some result.kind) x y) := by
  rw [apply_comparison] at hrun
  obtain ⟨p, b₁, hm, hrun⟩ := bind_eq_ok_iff.mp hrun
  cases hnum : Numeric.ofKind? p.1.kind with
  | none =>
    rw [compared_of_none hnum] at hrun
    cases hrun
  | some n =>
    rw [compared_of_some hnum] at hrun
    obtain rfl := append_eq_ok_iff.mp hrun
    obtain ⟨s₁, hlead, hn₁, hv, hw, hkind, -⟩ := h.matched hm ((h.push rfl).trans hB)
    have hd := delivers_three rfl hB hn₁ (h.declared hlead) h.result_new hv hw
      (Opcode.compare_matched hc (hkind ▸ hnum))
    rw [length_push]
    exact (hlead.mono h.kept).delivers hd (List.Subset.refl names)

/-- The first operand is copied into the result, which then accumulates the second.  The copy does
not clobber the second operand, because the result is neither a variable from before nor the new
variable of a conversion. -/
theorem arithmetic {a : Arithmetic} (h : Poised free names b B s result left right x y)
    (hrun : apply (.arithmetic a) result left right b = .ok () b') (hB : Grows free b' B)
    (hc : Operator.check (.arithmetic a) (some x.kind) (some y.kind) = .ok ())
    (hk : Operator.resultTy (.arithmetic a) (some x.kind) (some y.kind) = some result.kind) :
    Delivers B.code names s b'.code.length result
      (Operator.apply (.arithmetic a) (some result.kind) x y) := by
  obtain ⟨p, b₁, hm, hrun⟩ := bind_eq_ok_iff.mp hrun
  have hrun : (append ⟨.copy (versionFor result.kind), .two result p.1, none, rfl⟩ >>= fun _ =>
      append ⟨.accumulate (versionFor result.kind) a, .two result p.2, none, rfl⟩) b₁ =
        .ok () b' := hrun
  rw [bind_of_ok (append_apply _ b₁)] at hrun
  obtain rfl := append_eq_ok_iff.mp hrun
  obtain ⟨s₁, hlead, hn₁, hv, hw, -, hright⟩ :=
    h.matched hm (((h.push rfl).trans (h.push rfl)).trans hB)
  have hne : p.2.name ≠ result.name := by
    rcases hright with hp | hp
    · exact fun e => h.result_new (e ▸ hp ▸ h.right_mem)
    · exact fun e => hp (e ▸ h.result_mem)
  have hcopy : step B.code s₁ = .to (s₁.filled result (x.matched y).1) := by
    rw [step_of_push ((h.push rfl).trans hB) hn₁]
    simp [Instruction.exec, hv, Opcode.ofOne, Snapshot.fill, h.declared hlead]
  have hlead₂ := (hlead.mono h.kept).trans (.filled hcopy h.result_new) (List.Subset.refl names)
  have hstep : step B.code (s₁.filled result (x.matched y).1) =
      (s₁.filled result (x.matched y).1).fill result
        (some (Operator.apply (.arithmetic a) (some result.kind) x y)) := by
    have hself : (s₁.filled result (x.matched y).1).get result = some (x.matched y).1 :=
      Memory.set_same _ _ _
    have hother : (s₁.filled result (x.matched y).1).get p.2 = some (x.matched y).2 :=
      (Memory.set_other s₁.memory _ hne).trans hw
    rw [step_of_push hB (by simp [hn₁])]
    simp [Instruction.exec, hself, hother, Opcode.accumulate_matched hc hk]
  have hd := Delivers.of_fill hstep (h.declared hlead₂) h.result_new
  have hstop : (s₁.filled result (x.matched y).1).next + 1 = (b₁.code.length + 1) + 1 := by
    simp [hn₁]
  rw [hstop] at hd
  rw [length_push, length_push]
  exact hlead₂.delivers hd (List.Subset.refl names)

/-- Both operands are converted before they are divided. -/
theorem realDivision (h : Poised free names b B s result left right x y)
    (hrun : apply .realDivision result left right b = .ok () b') (hB : Grows free b' B)
    (hc : Operator.check .realDivision (some x.kind) (some y.kind) = .ok ()) :
    Delivers B.code names s b'.code.length result
      (Operator.apply .realDivision (some result.kind) x y) := by
  obtain ⟨ht, -, -⟩ := Operator.takes_of_check hc
  simp only [Operator.takes, Ty.isNumeric, Bool.and_eq_true] at ht
  obtain ⟨r, hr⟩ := Value.asReal_of_isNumeric ht.1
  obtain ⟨q, hq⟩ := Value.asReal_of_isNumeric ht.2
  obtain ⟨left', b₁, h₁, hrun⟩ := bind_eq_ok_iff.mp hrun
  obtain ⟨right', b₂, h₂, hrun⟩ := bind_eq_ok_iff.mp hrun
  obtain rfl := append_eq_ok_iff.mp hrun
  have g₁ : Grows free b b₁ := (grows_asReal left).of_ok h₁
  have g₂ : Grows free b₁ b₂ := (grows_asReal right).of_ok h₂
  obtain ⟨s₁, hlead₁, hn₁, hv, -, -⟩ :=
    asReal_leads h₁ ((g₂.trans (h.push rfl)).trans hB) h.fits h.next h.left_value h.left_kind hr
  have hy₁ : s₁.get right = some y := (hlead₁.get (h.kept h.right_mem)).trans h.right_value
  obtain ⟨s₂, hlead₂, hn₂, hw, -, -⟩ :=
    asReal_leads h₂ ((h.push rfl).trans hB) (hlead₁.fits h.fits) hn₁ hy₁ h.right_kind hq
  have hv₂ : s₂.get left' = some (.real r) :=
    (hlead₂.get (asReal_mem_names h₁ (h.kept h.left_mem))).trans hv
  have hlead := (hlead₁.mono h.kept).trans hlead₂ fun name hname => g₁.names (h.kept hname)
  have hd := delivers_three rfl hB hn₂ (h.declared hlead) h.result_new hv₂ hw rfl
  have happ : Operator.apply .realDivision (some result.kind) x y = .ok (.real (r / q)) := by
    simp [Operator.apply, hr, hq, bind, Except.bind, pure, Except.pure]
  rw [happ, length_push]
  exact hlead.delivers hd (List.Subset.refl names)

theorem wholeDivision {d : WholeDivision} (h : Poised free names b B s result left right x y)
    (hrun : apply (.wholeDivision d) result left right b = .ok () b') (hB : Grows free b' B)
    (hc : Operator.check (.wholeDivision d) (some x.kind) (some y.kind) = .ok ()) :
    Delivers B.code names s b'.code.length result
      (Operator.apply (.wholeDivision d) (some result.kind) x y) := by
  obtain ⟨ht, -, -⟩ := Operator.takes_of_check hc
  simp only [Operator.takes, Bool.and_eq_true, decide_eq_true_eq, Option.some.injEq] at ht
  obtain ⟨i, rfl⟩ := Value.kind_eq_integer ht.1
  obtain ⟨j, rfl⟩ := Value.kind_eq_integer ht.2
  cases d with
  | quotient =>
    obtain rfl := append_eq_ok_iff.mp hrun
    rw [length_push]
    exact delivers_three rfl hB h.next h.declared_start h.result_new h.left_value h.right_value rfl
  | remainder =>
    obtain rfl := append_eq_ok_iff.mp hrun
    rw [length_push]
    exact delivers_three rfl hB h.next h.declared_start h.result_new h.left_value h.right_value rfl

theorem logical {c : Connective} (h : Poised free names b B s result left right x y)
    (hrun : apply (.logical c) result left right b = .ok () b') (hB : Grows free b' B)
    (hc : Operator.check (.logical c) (some x.kind) (some y.kind) = .ok ()) :
    Delivers B.code names s b'.code.length result
      (Operator.apply (.logical c) (some result.kind) x y) := by
  obtain ⟨ht, -, -⟩ := Operator.takes_of_check hc
  simp only [Operator.takes, Bool.and_eq_true, decide_eq_true_eq, Option.some.injEq] at ht
  obtain ⟨p, rfl⟩ := Value.kind_eq_boolean ht.1
  obtain ⟨q, rfl⟩ := Value.kind_eq_boolean ht.2
  obtain rfl := append_eq_ok_iff.mp hrun
  rw [length_push]
  exact delivers_three rfl hB h.next h.declared_start h.result_new h.left_value h.right_value rfl

/-- **The code of an operator delivers its value** into the result. -/
theorem delivers {op : Operator} (h : Poised free names b B s result left right x y)
    (hrun : apply op result left right b = .ok () b') (hB : Grows free b' B)
    (hc : op.check (some x.kind) (some y.kind) = .ok ())
    (hk : op.resultTy (some x.kind) (some y.kind) = some result.kind) :
    Delivers B.code names s b'.code.length result (op.apply (some result.kind) x y) := by
  cases op with
  | comparison c => exact h.comparison hrun hB hc
  | arithmetic a => exact h.arithmetic hrun hB hc hk
  | realDivision => exact h.realDivision hrun hB hc
  | wholeDivision d => exact h.wholeDivision hrun hB hc
  | logical c => exact h.logical hrun hB hc

end Poised

/-- **An operator on variables delivers its value** into a new temporary, and leaves everything
that was registered as it was. -/
theorem combined_delivers {op : Operator} {k : Kind} {r : Option Handle}
    (hrun : combined op (some k) left right b = .ok r b') (hB : Grows free b' B)
    (hs : s.Fits B.table.entries B.code) (hn : s.next = b.code.length)
    (hl : left.name ∈ b.table.names) (hr : right.name ∈ b.table.names)
    (hx : s.get left = some x) (hy : s.get right = some y) (hkx : x.kind = left.kind)
    (hky : y.kind = right.kind) (hc : op.check (some x.kind) (some y.kind) = .ok ())
    (hk : op.resultTy (some x.kind) (some y.kind) = some k) :
    Delivers B.code b.table.names s b'.code.length ⟨b.freshName, k⟩ (op.apply (some k) x y) := by
  obtain ⟨-, happ⟩ := combined_eq_ok_iff.mp hrun
  have hfree : Grows (fun n => n = b.freshName ∨ free n) b' B := hB.mono fun _ => .inr
  have hgrows : Keeps (Grows fun n => n = b.freshName ∨ free n)
      (apply op ⟨b.freshName, k⟩ left right) := grows_apply op _ left right (.inl rfl)
  have hpoised : Poised (fun n => n = b.freshName ∨ free n) b.table.names
      (b.withTemp (.zero k)) B s ⟨b.freshName, k⟩ left right x y :=
    { grows := (hgrows.of_ok happ).trans hfree
      fits := hs
      next := hn
      result_free := .inl rfl
      result_mem := by simp [freshName]
      result_new := b.table.freshName_not_mem
      kept := fun name h => by simp [h]
      left_mem := hl
      right_mem := hr
      left_value := hx
      right_value := hy
      left_kind := hkx
      right_kind := hky }
  exact hpoised.delivers happ hfree hc hk

end Lowering

end ProcTree
