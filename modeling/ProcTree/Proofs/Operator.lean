/-
# Operators on values of the right kinds

The checker reads the kinds of operands off the tree, and an operator reads them off the values.
Here the two meet: on values whose kinds the checker accepts, an operator gives a value of the
kind that the checker predicts (`Operator.kind_of_apply`), and it fails in two cases only
(`Operator.apply_error`).
-/
import ProcTree.Typing
import ProcTree.Value.Operation

namespace ProcTree

/-! ## 1. Accessors -/

namespace Value

theorem kind_eq_boolean {v : Value} (h : v.kind = .boolean) : ∃ b, v = .boolean b := by
  cases v <;> simp_all [kind]

theorem kind_eq_integer {v : Value} (h : v.kind = .integer) : ∃ i, v = .integer i := by
  cases v <;> simp_all [kind]

theorem kind_eq_real {v : Value} (h : v.kind = .real) : ∃ x, v = .real x := by
  cases v <;> simp_all [kind]

theorem kind_eq_string {v : Value} (h : v.kind = .string) : ∃ s, v = .string s := by
  cases v <;> simp_all [kind]

/-- Every number can be read as a real. -/
theorem asReal_of_isNumeric {v : Value} (h : v.kind.isNumeric = true) : ∃ x, v.asReal = .ok x := by
  cases v <;> simp_all [kind, Kind.isNumeric, asReal]

/-- What a real or an integer place stores has the place's kind. -/
theorem kind_promote {k : Kind} {v : Value}
    (h : Ty.accepts (some k) (some v.kind) = true) : (v.promote k).kind = k := by
  cases v <;> cases k <;> simp_all [promote, kind, Ty.accepts]

end Value

/-! ## 2. Kinds of results -/

theorem Operator.takes_of_check {op : Operator} {s t : Ty} (h : op.check s t = .ok ()) :
    op.takes s t = true ∧ s ≠ none ∧ t ≠ none := by
  unfold Operator.check at h
  split at h
  · exact absurd h (by simp)
  · next hn =>
    split at h
    · next ht => exact ⟨ht, fun e => hn (.inl e), fun e => hn (.inr e)⟩
    · exact absurd h (by simp)

/-- An operator produces a value: its type is never the one without. -/
theorem Operator.resultTy_ne_none (op : Operator) (s t : Ty) : op.resultTy s t ≠ none := by
  cases op with
  | arithmetic a =>
    simp only [resultTy]
    split <;> simp
  | _ => simp [resultTy]

/-- **The value of an operator has the predicted type**, whatever the operands. -/
theorem Operator.kind_of_apply {op : Operator} {s t : Ty} {x y v : Value}
    (h : op.apply (op.resultTy s t) x y = .ok v) : some v.kind = op.resultTy s t := by
  cases op with
  | comparison c =>
    simp only [apply] at h
    cases hc : c.apply x y with
    | error e => simp [hc, Except.map] at h
    | ok b =>
      obtain rfl : Value.boolean b = v := by simpa [hc, Except.map] using h
      rfl
  | arithmetic a =>
    simp only [apply] at h
    split at h
    · next hr =>
      cases x <;> cases y <;> simp [Value.asInteger, bind, Except.bind, pure, Except.pure] at h
      subst h
      exact hr.symm
    · next hr =>
      have ht : Operator.resultTy (.arithmetic a) s t = some .real := by
        simp only [resultTy] at hr ⊢
        split <;> simp_all
      cases x <;> cases y <;> simp [Value.asReal, bind, Except.bind, pure, Except.pure] at h <;>
        subst h <;> exact ht.symm
  | realDivision =>
    simp only [apply] at h
    cases x <;> cases y <;> simp [Value.asReal, bind, Except.bind, pure, Except.pure] at h <;>
      subst h <;> rfl
  | wholeDivision d =>
    simp only [apply] at h
    cases x <;> cases y <;> simp [Value.asInteger, bind, Except.bind] at h
    next i j =>
    cases hd : d.integers i j with
    | error e => simp [hd, Except.map] at h
    | ok k =>
      obtain rfl : Value.integer k = v := by simpa [hd, Except.map] using h
      rfl
  | logical c =>
    simp only [apply] at h
    cases x <;> cases y <;> simp [Value.asBoolean, bind, Except.bind, pure, Except.pure] at h
    subst h
    rfl

/-! ## 3. Failures of results -/

/-- The relations that order their operands, rather than only tell them apart. -/
def Comparison.orders : Comparison → Bool
  | .equal | .notEqual => false
  | .less | .lessEqual | .greater | .greaterEqual => true

/-- The ways in which an operator can fail on operands that it takes. -/
inductive Operator.Fails : Operator → Value → Value → Error → Prop
  /-- A whole division by zero. -/
  | division (d : WholeDivision) (i : Int64) :
      Fails (.wholeDivision d) (.integer i) (.integer 0) .divisionByZero
  /-- A relation that would have to order booleans. -/
  | order (c : Comparison) (a b : Bool) (h : c.orders = true) :
      Fails (.comparison c) (.boolean a) (.boolean b)
        (.unsupportedOperation c.symbol Kind.boolean.name)

/-- A comparison of two values of one kind, or of two numbers, fails on booleans in order only. -/
theorem Comparison.apply_error {c : Comparison} {x y : Value} {e : Error}
    (hk : x.kind = y.kind ∨ (x.kind.isNumeric = true ∧ y.kind.isNumeric = true))
    (h : c.apply x y = .error e) : Operator.Fails (.comparison c) x y e := by
  cases x <;> cases y <;> simp [Value.kind, Kind.isNumeric] at hk <;>
    simp [Comparison.apply, Value.asBoolean, Value.asString, Value.asReal, bind, Except.bind,
      pure, Except.pure] at h
  next a b =>
  cases c <;> simp [Comparison.booleans] at h <;> subst h <;> exact .order _ a b rfl

/-- **On operands that it takes, an operator fails in two cases only.** -/
theorem Operator.apply_error {op : Operator} {x y : Value} {e : Error}
    (hc : op.check (some x.kind) (some y.kind) = .ok ())
    (h : op.apply (op.resultTy (some x.kind) (some y.kind)) x y = .error e) :
    op.Fails x y e := by
  obtain ⟨ht, -, -⟩ := Operator.takes_of_check hc
  cases op with
  | comparison c =>
    simp only [takes, Ty.isNumeric, Bool.or_eq_true, decide_eq_true_eq, Option.some.injEq,
      Bool.and_eq_true] at ht
    simp only [apply] at h
    cases ha : c.apply x y with
    | ok b => simp [ha, Except.map] at h
    | error e' =>
      obtain rfl : e' = e := by simpa [ha, Except.map] using h
      exact Comparison.apply_error ht ha
  | arithmetic a =>
    cases x <;> cases y <;> simp [takes, Ty.isNumeric, Value.kind, Kind.isNumeric] at ht <;>
      simp [apply, resultTy, Value.kind, Value.asInteger, Value.asReal, bind, Except.bind, pure,
        Except.pure] at h
  | realDivision =>
    cases x <;> cases y <;> simp [takes, Ty.isNumeric, Value.kind, Kind.isNumeric] at ht <;>
      simp [apply, Value.asReal, bind, Except.bind, pure, Except.pure] at h
  | wholeDivision d =>
    cases x <;> cases y <;> simp [takes, Value.kind] at ht
    next i j =>
    simp only [apply, Value.asInteger, bind, Except.bind, WholeDivision.integers] at h
    split at h
    · next hj =>
      obtain rfl : Error.divisionByZero = e := by simpa [Except.map] using h
      exact hj ▸ .division d i
    · cases d <;> simp [Except.map] at h
  | logical c =>
    cases x <;> cases y <;> simp [takes, Value.kind] at ht
    simp [apply, Value.asBoolean, bind, Except.bind, pure, Except.pure] at h

end ProcTree
