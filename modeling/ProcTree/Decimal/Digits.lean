/-
# Whole numbers in decimal

`natText` writes a natural number without leading zeros, and `nat?` reads any non-empty run of
ASCII digits, leading zeros included.  `intText` and `int?` add the sign; a written sign is
always a minus, a read one may also be a plus.

`nat?_natChars` and `int?_intChars` say that what is written is read back.
-/

namespace ProcTree.Decimal

/-! ## 1. Natural numbers -/

/-- The digits of a number, most significant first; zero has one digit. -/
def natChars (n : Nat) : List Char := Nat.toDigits 10 n

/-- The decimal text of a number. -/
def natText (n : Nat) : String := String.ofList (natChars n)

/-- The number written by a non-empty run of digits. -/
def nat? (cs : List Char) : Option Nat :=
  if cs ≠ [] ∧ cs.all Char.isDigit then some (Nat.ofDigitChars 10 cs 0) else none

theorem natChars_ne_nil (n : Nat) : natChars n ≠ [] := Nat.toDigits_ne_nil

theorem isDigit_of_mem_natChars {n : Nat} {c : Char} (h : c ∈ natChars n) : c.isDigit = true :=
  Nat.isDigit_of_mem_toDigits (by decide) (by decide) h

theorem nat?_natChars (n : Nat) : nat? (natChars n) = some n := by
  have h : (natChars n).all Char.isDigit = true :=
    List.all_eq_true.mpr fun _ hc => isDigit_of_mem_natChars hc
  rw [nat?, if_pos ⟨natChars_ne_nil n, h⟩, natChars, Nat.ofDigitChars_ten_toDigits]

/-- **Written numbers are told apart by their text.** -/
theorem natChars_injective {m n : Nat} (h : natChars m = natChars n) : m = n := by
  have := nat?_natChars m
  rw [h, nat?_natChars] at this
  exact (Option.some.inj this).symm

/-! ## 2. Integers -/

/-- The digits of an integer, after a minus when it is negative. -/
def intChars : Int → List Char
  | .ofNat n => natChars n
  | .negSucc n => '-' :: natChars (n + 1)

/-- The decimal text of an integer. -/
def intText (i : Int) : String := String.ofList (intChars i)

/-- The integer written by a run of digits after an optional sign. -/
def int? : List Char → Option Int
  | '-' :: cs => (nat? cs).map fun n => -(n : Int)
  | '+' :: cs => (nat? cs).map fun n => (n : Int)
  | cs => (nat? cs).map fun n => (n : Int)

/-- The integer of sixty-four bits with this text; none outside the range. -/
def int64? (cs : List Char) : Option Int64 :=
  (int? cs).bind fun i =>
    if Int64.minValue.toInt ≤ i ∧ i ≤ Int64.maxValue.toInt then some (Int64.ofInt i) else none

/-- The natural number below `2 ^ 64` with this text. -/
def uint64? (cs : List Char) : Option UInt64 :=
  (nat? cs).bind fun n => if n < UInt64.size then some (UInt64.ofNat n) else none

theorem int?_intChars (i : Int) : int? (intChars i) = some i := by
  cases i with
  | negSucc n => simp [intChars, int?, nat?_natChars, Int.negSucc_eq]
  | ofNat n =>
    have h : int? (natChars n) = (nat? (natChars n)).map fun n => (n : Int) := by
      unfold int?
      split
      · next cs hcs =>
        exact absurd (isDigit_of_mem_natChars (n := n) (c := '-') (by simp [hcs])) (by decide)
      · next cs hcs =>
        exact absurd (isDigit_of_mem_natChars (n := n) (c := '+') (by simp [hcs])) (by decide)
      · rfl
    simp [intChars, h, nat?_natChars]

end ProcTree.Decimal
