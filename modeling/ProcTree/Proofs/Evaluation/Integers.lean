/-
# Integer arithmetic is exact modulo `2 ^ 64`

The integers of the language are words of sixty-four bits, and an expression over them has an exact
value as well, computed with integers of any size.  Sums, differences and products commute with the
reduction of an integer to a word (`Arithmetic.ofInt_exact`), so that it makes no difference whether
every node is reduced or only the whole (`Tree.Integral.hasInteger`).

Division is not of this kind: quotient and remainder are those of the two words.  They belong
together (`quotient_remainder`), also for the one pair whose exact quotient is no word, the least
integer by minus one.
-/
import Mathlib.Data.Int.ModEq
import ProcTree.Proofs.Evaluation.Order

namespace ProcTree

/-! ## 1. Words -/

/-- The word is the reduction of the integer: of all words it alone is congruent to it modulo
`2 ^ 64`. -/
def Reduces (n : Int) (i : Int64) : Prop := ∀ j : Int64, j.toInt ≡ n [ZMOD Int64.size] ↔ j = i

theorem modEq_iff {n : Int} {j : Int64} : j.toInt ≡ n [ZMOD Int64.size] ↔ j = Int64.ofInt n := by
  rw [← Int64.toInt_inj, Int64.toInt_ofInt]
  constructor
  · intro h
    calc j.toInt = j.toInt.bmod Int64.size := (Int64.toInt_bmod_size j).symm
      _ = (j.toInt % Int64.size).bmod Int64.size := (Int.emod_bmod ..).symm
      _ = (n % Int64.size).bmod Int64.size := by rw [h]
      _ = n.bmod Int64.size := Int.emod_bmod ..
  · intro h
    rw [h]
    exact Int.bmod_emod

theorem reduces_iff {n : Int} {i : Int64} : Reduces n i ↔ i = Int64.ofInt n := by
  constructor
  · intro h
    exact modEq_iff.mp ((h i).mpr rfl)
  · rintro rfl j
    exact modEq_iff

/-- The operation on integers of any size. -/
def Arithmetic.exact (a : Arithmetic) (m n : Int) : Int :=
  match a with
  | add => m + n
  | subtract => m - n
  | multiply => m * n

/-- **Reducing the exact result is computing with the reduced operands.** -/
theorem Arithmetic.ofInt_exact (a : Arithmetic) (m n : Int) :
    Int64.ofInt (a.exact m n) = a.integers (Int64.ofInt m) (Int64.ofInt n) := by
  cases a with
  | add => exact Int64.ofInt_add m n
  | subtract => exact Int64.ofInt_sub m n
  | multiply => exact Int64.ofInt_mul m n

/-! ## 2. Quotients and remainders of words -/

/-- The quotient is the exact one, truncated toward zero and reduced. -/
theorem reduces_quotient (a b : Int64) : Reduces (a.toInt.tdiv b.toInt) (a / b) := by
  rw [reduces_iff, ← Int64.toInt_inj, Int64.toInt_div, Int64.toInt_ofInt]

/-- The remainder is nearer to zero than the divisor, and has the sign of the dividend unless it is
zero. -/
theorem remainder_bounds (a : Int64) {b : Int64} (hb : b ≠ 0) :
    (a % b).toInt.natAbs < b.toInt.natAbs ∧
      ((a % b).toInt = 0 ∨ (a % b).toInt.sign = a.toInt.sign) := by
  have hpos : 0 < b.toInt.natAbs := by
    rw [Int.natAbs_pos]
    exact fun h => hb (Int64.toInt_inj.mp h)
  rw [Int64.toInt_mod, Int.natAbs_tmod, Int.sign_tmod]
  refine ⟨Nat.mod_lt _ hpos, ?_⟩
  split
  · next h => exact .inl (Int.tmod_eq_zero_of_dvd h)
  · exact .inr rfl

/-- **The divisor times the quotient, and the remainder added, is the dividend**, computed with
words.  On integers of any size this is so for the exact quotient; both sides are reduced. -/
theorem quotient_remainder (a b : Int64) : b * (a / b) + a % b = a := by
  have hexact : b.toInt * a.toInt.tdiv b.toInt + a.toInt.tmod b.toInt = a.toInt :=
    Int.mul_tdiv_add_tmod a.toInt b.toInt
  have hq : a / b = Int64.ofInt (a.toInt.tdiv b.toInt) := reduces_iff.mp (reduces_quotient a b)
  have hr : a % b = Int64.ofInt (a.toInt.tmod b.toInt) := by
    rw [← Int64.toInt_mod, Int64.ofInt_toInt]
  calc b * (a / b) + a % b
      = Int64.ofInt (b.toInt * a.toInt.tdiv b.toInt + a.toInt.tmod b.toInt) := by
        rw [Int64.ofInt_add, Int64.ofInt_mul, Int64.ofInt_toInt, hq, hr]
    _ = Int64.ofInt a.toInt := by rw [hexact]
    _ = a := Int64.ofInt_toInt a

namespace Tree

/-! ## 3. Integer operands -/

/-- On this table the tree is an integer: by its type, and with this value. -/
structure HasInteger (t : Tree) (table : Table) (i : Int64) : Prop where
  type : t.staticType = some .integer
  value : t.EvaluatesTo table (.integer i)

namespace HasInteger

variable {table : Table} {l r : Tree} {i j : Int64}

theorem constant (table : Table) (i : Int64) : (constant (.integer i)).HasInteger table i :=
  ⟨rfl, evaluatesTo_of_value rfl⟩

theorem arithmetic (a : Arithmetic) (hl : l.HasInteger table i) (hr : r.HasInteger table j) :
    (binary (.arithmetic a) l r).HasInteger table (a.integers i j) := by
  have htype : (Operator.arithmetic a).resultTy l.staticType r.staticType = some .integer :=
    if_pos ⟨hl.type, hr.type⟩
  refine ⟨htype, evaluatesTo_binary hl.value hr.value ?_⟩
  rw [htype]
  rfl

theorem quotient (hl : l.HasInteger table i) (hr : r.HasInteger table j) (hj : j ≠ 0) :
    (binary (.wholeDivision .quotient) l r).HasInteger table (i / j) := by
  refine ⟨rfl, evaluatesTo_binary hl.value hr.value ?_⟩
  simp [Operator.apply, Value.asInteger, WholeDivision.integers, hj, bind, Except.bind, Except.map]

theorem remainder (hl : l.HasInteger table i) (hr : r.HasInteger table j) (hj : j ≠ 0) :
    (binary (.wholeDivision .remainder) l r).HasInteger table (i % j) := by
  refine ⟨rfl, evaluatesTo_binary hl.value hr.value ?_⟩
  simp [Operator.apply, Value.asInteger, WholeDivision.integers, hj, bind, Except.bind, Except.map]

theorem division_by_zero (d : WholeDivision) (hl : l.HasInteger table i)
    (hr : r.HasInteger table 0) :
    (binary (.wholeDivision d) l r).FailsWith table .divisionByZero :=
  failsWith_binary hl.value hr.value rfl

end HasInteger

/-! ## 4. Expressions of integers -/

/-- Integer constants, references to integer variables of the table, and sums, differences and
products of such trees. -/
inductive Integral (table : Table) : Tree → Prop
  | constant (i : Int64) : Integral table (.constant (.integer i))
  | reference {h : Handle} (kind : h.kind = .integer) (registered : table.Registers h) :
      Integral table (.reference h)
  | arithmetic (a : Arithmetic) {l r : Tree} (left : Integral table l) (right : Integral table r) :
      Integral table (.binary (.arithmetic a) l r)

/-- The value of an expression of integers, computed with integers of any size from the values of
its constants and variables.  Other trees have none, and count as zero. -/
def exactValue (table : Table) : Tree → Int
  | .constant (.integer i) => i.toInt
  | .reference h =>
    match table.valueOf h with
    | .ok (.integer i) => i.toInt
    | _ => 0
  | .binary (.arithmetic a) l r => a.exact (l.exactValue table) (r.exactValue table)
  | _ => 0

/-- **The value of an expression of integers is the reduction of its exact value.**  The induction
is on the expression; reducing its operands first makes no difference. -/
theorem Integral.hasInteger {table : Table} (hw : table.WellFormed) {t : Tree}
    (h : t.Integral table) : t.HasInteger table (Int64.ofInt (t.exactValue table)) := by
  induction h with
  | constant i =>
    rw [exactValue, Int64.ofInt_toInt]
    exact .constant table i
  | @reference h kind registered =>
    obtain ⟨v, hv, hk⟩ := registered.valueOf hw
    obtain ⟨i, rfl⟩ := Value.kind_eq_integer (hk.trans kind)
    have hexact : (Tree.reference h).exactValue table = i.toInt := by rw [exactValue, hv]
    rw [hexact, Int64.ofInt_toInt]
    exact ⟨congrArg some kind, evaluatesTo_of_value hv⟩
  | arithmetic a left right ihl ihr =>
    rw [exactValue, Arithmetic.ofInt_exact]
    exact ihl.arithmetic a ihr

/-- **Integer arithmetic is exact modulo `2 ^ 64`.**  On a well formed table every expression of
integers gives a value, the reduction of its exact value.  Of two integers, the second one not zero,
the quotient is the exact one truncated toward zero and reduced; the remainder is nearer to zero
than the divisor, and zero or of the sign of the dividend; and the divisor times the quotient with
the remainder added is the dividend, computed in the language.  If the second one is zero, quotient
and remainder fail by the division and leave everything as it is. -/
theorem integer_arithmetic_exact (table : Table) :
    (table.WellFormed → ∀ t : Tree, t.Integral table →
        ∃ i, t.EvaluatesTo table (.integer i) ∧ Reduces (t.exactValue table) i) ∧
      ∀ (l r : Tree) (a b : Int64), l.HasInteger table a → r.HasInteger table b →
        let quotient := binary (.wholeDivision .quotient) l r
        let remainder := binary (.wholeDivision .remainder) l r
        (b ≠ 0 → ∃ q m, quotient.EvaluatesTo table (.integer q) ∧
            remainder.EvaluatesTo table (.integer m) ∧ Reduces (a.toInt.tdiv b.toInt) q ∧
            m.toInt.natAbs < b.toInt.natAbs ∧ (m.toInt = 0 ∨ m.toInt.sign = a.toInt.sign) ∧
            (binary (.arithmetic .add) (binary (.arithmetic .multiply) r quotient)
              remainder).EvaluatesTo table (.integer a)) ∧
          (b = 0 → quotient.FailsWith table .divisionByZero ∧
            remainder.FailsWith table .divisionByZero) := by
  refine ⟨fun hw t ht => ?_, fun l r a b hl hr => ⟨fun hb => ?_, ?_⟩⟩
  · exact ⟨_, (ht.hasInteger hw).value, reduces_iff.mpr rfl⟩
  · have hq := hl.quotient hr hb
    have hm := hl.remainder hr hb
    obtain ⟨hsmall, hsign⟩ := remainder_bounds a hb
    have hback := (hr.arithmetic .multiply hq).arithmetic .add hm
    have hsum : Arithmetic.add.integers (Arithmetic.multiply.integers b (a / b)) (a % b) = a :=
      quotient_remainder a b
    exact ⟨a / b, a % b, hq.value, hm.value, reduces_quotient a b, hsmall, hsign,
      hsum ▸ hback.value⟩
  · rintro rfl
    exact ⟨hl.division_by_zero .quotient hr, hl.division_by_zero .remainder hr⟩

/-- The least integer squared and less one, which fits twice into a hundred and twenty-six bits; the
same integer divided by minus one, where the quotient wraps to the dividend and nothing remains; and
divided by zero. -/
theorem integer_arithmetic_exact_least :
    let x : Handle := ⟨"x", .integer⟩
    let least : Tree := reference x
    let table : Table := ⟨[⟨"x", .integer, .integer Int64.minValue⟩], "_tempVar", 0⟩
    let t : Tree := binary (.arithmetic .subtract)
      (binary (.arithmetic .multiply) least least) (constant (.integer 1))
    let divided (d : WholeDivision) (b : Int64) : Tree :=
      binary (.wholeDivision d) least (constant (.integer b))
    table.WellFormed ∧ t.Integral table ∧
      t.exactValue table = 85070591730234615865843651857942052863 ∧
      t.EvaluatesTo table (.integer (-1)) ∧ least.HasInteger table Int64.minValue ∧
      (divided .quotient (-1)).EvaluatesTo table (.integer Int64.minValue) ∧
      (divided .remainder (-1)).EvaluatesTo table (.integer 0) ∧
      (binary (.arithmetic .add)
        (binary (.arithmetic .multiply) (constant (.integer (-1))) (divided .quotient (-1)))
        (divided .remainder (-1))).EvaluatesTo table (.integer Int64.minValue) ∧
      (divided .quotient 0).FailsWith table .divisionByZero ∧
      (divided .remainder 0).FailsWith table .divisionByZero := by
  intro x least table t divided
  have hw : table.WellFormed :=
    ⟨by simp [table, Table.names], by simp [table, Variable.WellKinded, Value.kind]⟩
  have hleast : Integral table least := .reference rfl rfl
  have ht : t.Integral table :=
    .arithmetic .subtract (.arithmetic .multiply hleast hleast) (.constant 1)
  have hx : least.HasInteger table Int64.minValue := ⟨rfl, evaluatesTo_of_value rfl⟩
  obtain ⟨i, hi, hreduces⟩ := (integer_arithmetic_exact table).1 hw t ht
  obtain rfl : -1 = i := (hreduces (-1)).mp (by decide +kernel)
  obtain ⟨q, m, hq, hm, hquotient, hsmall, -, hback⟩ :=
    ((integer_arithmetic_exact table).2 least _ _ _ hx (.constant table (-1))).1 (by decide)
  obtain rfl : Int64.minValue = q := (hquotient Int64.minValue).mp (by decide +kernel)
  obtain rfl : m = 0 := by
    rw [← Int64.toInt_inj]
    have hone : (-1 : Int64).toInt.natAbs = 1 := by decide
    exact Int.natAbs_eq_zero.mp (Nat.lt_one_iff.mp (hone ▸ hsmall))
  obtain ⟨hz, hz'⟩ :=
    ((integer_arithmetic_exact table).2 least _ _ _ hx (.constant table 0)).2 rfl
  exact ⟨hw, ht, by decide +kernel, hi, hx, hq, hm, hback, hz, hz'⟩

end Tree
end ProcTree
