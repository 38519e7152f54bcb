/-
# Written reals are numerals

The text of a real is one of those that are read as a real, whichever real that is
(`exists_spellsReal`).  It need not be known for this that the search for the shortest digits finds
the right ones.

* `Decimal.shortestFrom_ne_nil`: the search finds at least one digit.  A point of a grid that lies
  in an interval of positive numbers is not zero, and when the finest grid has none, the value is at
  least one unit of it (`Interval.Positive.den_le_middle`).
* `Decimal.exists_spellsNumeral_write`: both forms in which digits are laid out are numerals, if
  there is a digit.
-/
import Mathlib.Data.List.TakeWhile
import ProcTree.Proofs.Listing.Values

namespace ProcTree
namespace Decimal

/-! ## 1. Digits of positive numbers -/

theorem ofDigitChars_zeros {cs : List Char} (h : ∀ c ∈ cs, c = '0') :
    Nat.ofDigitChars 10 cs 0 = 0 := by
  induction cs with
  | nil => rfl
  | cons c cs ih =>
    rw [Nat.ofDigitChars_cons, h c List.mem_cons_self]
    exact ih fun d hd => h d (List.mem_cons_of_mem c hd)

/-- A positive number has a digit that is not zero. -/
theorem ofScaled_ne_nil {n : Nat} (hn : 0 < n) (e : Int) :
    (Fraction.ofScaled n e).digits ≠ [] := by
  rw [Fraction.ofScaled, ne_eq, List.reverse_eq_nil_iff, List.dropWhile_eq_nil_iff]
  intro hall
  have hzeros : ∀ c ∈ natChars n, c = '0' :=
    fun c hc => by simpa using hall c (List.mem_reverse.mpr hc)
  have hvalue : Nat.ofDigitChars 10 (natChars n) 0 = n := Nat.ofDigitChars_ten_toDigits
  rw [ofDigitChars_zeros hzeros] at hvalue
  omega

/-! ## 2. Intervals of positive numbers -/

namespace Interval

/-- The interval and the value in it are positive. -/
structure Positive (i : Interval) : Prop where
  low : 0 < i.low
  middle : 0 < i.middle
  high : 0 < i.high
  den : 0 < i.den

variable {i : Interval}

theorem positive_around {m : Nat} (hm : 0 < m) (q : Int) (narrow : Bool) :
    (around m q narrow).Positive := by
  have hscale : ∀ k, 0 < 1 <<< k := by
    intro k
    rw [Nat.one_shiftLeft]
    exact Nat.two_pow_pos k
  have hlow : 0 < if narrow then 4 * m - 1 else 4 * m - 2 := by
    split <;> omega
  exact ⟨Nat.mul_pos hlow (hscale _), Nat.mul_pos (by omega) (hscale _),
    Nat.mul_pos (by omega) (hscale _), hscale _⟩

theorem pow_ten_pos (k : Nat) : 0 < Nat.pow 10 k := Nat.pow_pos (by decide)

theorem Positive.inUnits (h : i.Positive) (e : Int) : (i.inUnits e).Positive :=
  ⟨Nat.mul_pos h.low (pow_ten_pos _), Nat.mul_pos h.middle (pow_ten_pos _),
    Nat.mul_pos h.high (pow_ten_pos _), Nat.mul_pos h.den (pow_ten_pos _)⟩

/-- Zero lies in no such interval. -/
theorem Positive.holds_zero (h : i.Positive) : i.holds 0 = false := by
  have hlow := h.low
  have hhigh := h.high
  simp only [holds, Nat.zero_mul, Bool.or_eq_false_iff, Bool.and_eq_false_iff,
    decide_eq_false_iff_not]
  exact ⟨.inl (by omega), .inr ⟨by omega, by omega⟩⟩

theorem Positive.nearest?_pos (h : i.Positive) {n : Nat} (hn : i.nearest? = some n) : 0 < n := by
  have hbelow : ∀ k, i.holds k = true → 0 < k := by
    intro k hk
    rcases Nat.eq_zero_or_pos k with rfl | hpos
    · rw [h.holds_zero] at hk
      cases hk
    · exact hpos
  unfold nearest? at hn
  simp only at hn
  split at hn
  · split at hn
    · obtain rfl := Option.some.inj hn
      exact hbelow _ ‹_›
    · obtain rfl := Option.some.inj hn
      exact Nat.succ_pos _
  · obtain rfl := Option.some.inj hn
    exact hbelow _ ‹_›
  · obtain rfl := Option.some.inj hn
    exact Nat.succ_pos _
  · cases hn

/-- Ten to the number of digits less one is not more than the number. -/
theorem pow_le_of_lt_length {n k : Nat} (hn : 0 < n) (hk : k < (natChars n).length) :
    Nat.pow 10 k ≤ n := by
  rcases Nat.eq_zero_or_pos k with rfl | hpos
  · exact hn
  · have hlen := (Nat.length_toDigits_le_iff (b := 10) (n := n) (by decide) hpos).not
    exact Nat.le_of_not_lt (hlen.mp (Nat.not_le_of_lt hk))

theorem lt_pow_length (n : Nat) : n < Nat.pow 10 (natChars n).length :=
  (Nat.length_toDigits_le_iff (by decide) (List.length_pos_iff.mpr (natChars_ne_nil n))).mp
    (Nat.le_refl _)

/-- **The value is at least one unit** of every grid that is tried. -/
theorem Positive.den_le_middle (h : i.Positive) {e : Int} (he : e ≤ i.magnitude - 1) :
    (i.inUnits e).den ≤ (i.inUnits e).middle := by
  change i.den * Nat.pow 10 e.toNat ≤ i.middle * Nat.pow 10 (-e).toNat
  have hmono : ∀ {j k : Nat}, j ≤ k → Nat.pow 10 j ≤ Nat.pow 10 k :=
    fun hjk => Nat.pow_le_pow_right (by decide) hjk
  rw [magnitude] at he
  split at he
  · next hle =>
    -- The value has digits before the point, and the unit is not above the first of them.
    have hpos : 0 < i.middle / i.den := Nat.div_pos hle h.den
    have hdigits := List.length_pos_iff.mpr (natChars_ne_nil (i.middle / i.den))
    calc i.den * Nat.pow 10 e.toNat
      _ ≤ i.den * (i.middle / i.den) :=
        Nat.mul_le_mul_left _ (pow_le_of_lt_length hpos (by omega))
      _ ≤ i.middle := Nat.mul_div_le _ _
      _ ≤ i.middle * Nat.pow 10 (-e).toNat := Nat.le_mul_of_pos_right _ (pow_ten_pos _)
  · next hlt =>
    -- The value begins with zeros after the point, and the unit is below them.
    have hzeros := List.length_pos_iff.mpr (natChars_ne_nil ((i.den - 1) / i.middle))
    have hdiv := (Nat.div_lt_iff_lt_mul h.middle).mp (lt_pow_length ((i.den - 1) / i.middle))
    have he0 : e.toNat = 0 := by omega
    have hunit := hmono (j := (natChars ((i.den - 1) / i.middle)).length) (k := (-e).toNat)
      (by omega)
    calc i.den * Nat.pow 10 e.toNat
      _ = i.den := by rw [he0]; exact Nat.mul_one _
      _ ≤ Nat.pow 10 (natChars ((i.den - 1) / i.middle)).length * i.middle := by omega
      _ ≤ Nat.pow 10 (-e).toNat * i.middle := Nat.mul_le_mul_right _ hunit
      _ = i.middle * Nat.pow 10 (-e).toNat := Nat.mul_comm _ _

end Interval

/-- **The search finds at least one digit.** -/
theorem shortestFrom_ne_nil {i : Interval} (h : i.Positive) {e : Int} (he : e ≤ i.magnitude - 1)
    (finer : Nat) : (shortestFrom i e finer).digits ≠ [] := by
  induction finer generalizing e with
  | zero =>
    refine ofScaled_ne_nil ?_ e
    cases hn : (i.inUnits e).nearest? with
    | some n => exact (h.inUnits e).nearest?_pos hn
    | none => exact Nat.div_pos (h.den_le_middle he) (h.inUnits e).den
  | succ finer ih =>
    rw [shortestFrom]
    split
    · next n hn => exact ofScaled_ne_nil ((h.inUnits e).nearest?_pos hn) e
    · exact ih (by omega)

/-! ## 3. Digits as they are laid out -/

/-- Digits around a point, without a power of ten. -/
theorem SpellsNumeral.point (whole part : List Char) (hwhole : ∀ c ∈ whole, c.isDigit = true)
    (hpart : ∀ c ∈ part, c.isDigit = true) (hne : whole ≠ [] ∨ part ≠ []) :
    ∃ n, SpellsNumeral (whole ++ '.' :: part) n := by
  have h := SpellsNumeral.mk hwhole (.point hpart) hne .nil
  rw [List.append_nil] at h
  exact ⟨_, h⟩

theorem isDigit_zeros (k : Nat) : ∀ c ∈ List.replicate k '0', c.isDigit = true := by
  intro c hc
  rw [List.eq_of_mem_replicate hc]
  decide

section
variable {f : Fraction} (hdigits : ∀ c ∈ f.digits, c.isDigit = true)
include hdigits

theorem exists_spellsNumeral_positional : ∃ n, SpellsNumeral (realLayout.positional f) n := by
  have htake : ∀ c ∈ f.digits.take f.point.toNat, c.isDigit = true :=
    fun c hc => hdigits c (List.mem_of_mem_take hc)
  have hdrop : ∀ c ∈ f.digits.drop f.point.toNat, c.isDigit = true :=
    fun c hc => hdigits c (List.mem_of_mem_drop hc)
  unfold Layout.positional
  simp only
  split
  · exact SpellsNumeral.point ['0'] _ (isDigit_zeros 1)
      (List.forall_mem_append.mpr ⟨isDigit_zeros _, hdigits⟩) (.inl (by simp))
  · split
    · exact SpellsNumeral.point _ ['0']
        (List.forall_mem_append.mpr ⟨hdigits, isDigit_zeros _⟩) (isDigit_zeros 1) (.inr (by simp))
    · next hlong =>
      have hrest : f.digits.drop f.point.toNat ≠ [] := by simpa using hlong
      exact SpellsNumeral.point _ _ htake hdrop (.inr hrest)

theorem exists_spellsNumeral_scientific (hne : f.digits ≠ []) :
    ∃ n, SpellsNumeral (realLayout.scientific f) n := by
  have htake : ∀ c ∈ f.digits.take 1, c.isDigit = true :=
    fun c hc => hdigits c (List.mem_of_mem_take hc)
  have hdrop : ∀ c ∈ f.digits.drop 1, c.isDigit = true :=
    fun c hc => hdigits c (List.mem_of_mem_drop hc)
  have hfirst : f.digits.take 1 ≠ [] := by simpa using hne
  have hpower : SpellsExponent ('e' :: intChars (f.point - 1)) (f.point - 1) :=
    .mark (.inl rfl) (int?_eq_some_iff.mp (int?_intChars _))
  unfold Layout.scientific
  simp only
  rw [List.append_assoc]
  split
  · exact ⟨_, .mk htake .nil (.inl hfirst) hpower⟩
  · exact ⟨_, .mk htake (.point hdrop) (.inl hfirst) hpower⟩

/-- **Digits that are laid out** as those of a real are a numeral. -/
theorem exists_spellsNumeral_write (hne : f.digits ≠ []) :
    ∃ n, SpellsNumeral (realLayout.write f) n := by
  unfold Layout.write
  split
  · exact exists_spellsNumeral_positional hdigits
  · exact exists_spellsNumeral_scientific hdigits hne

end
end Decimal

/-! ## 4. Reals -/

/-- A text is read with a sign before it if it is read without one. -/
theorem exists_spellsReal_sign {cs : List Char} {x : Float} (h : SpellsMagnitude cs x)
    (s : Float.Model.UnpackedFloat.Sign) : ∃ y, SpellsReal (signChars s ++ cs) y := by
  cases s with
  | positive => exact ⟨_, .plain h⟩
  | negative => exact ⟨_, .minus h⟩

/-- **The text of a real is read** as some real. -/
theorem exists_spellsReal (x : Float) : ∃ y, SpellsReal (realChars x) y := by
  unfold realChars
  split
  · exact ⟨_, .plain (.nan (by decide))⟩
  · exact exists_spellsReal_sign (.infinity (.inl (by decide))) _
  · have hzero := Decimal.isDigit_zeros 1
    obtain ⟨n, hn⟩ := Decimal.SpellsNumeral.point ['0'] ['0'] hzero hzero (.inl (by simp))
    exact exists_spellsReal_sign (.numeral hn) _
  · next s m q hm _ =>
    obtain ⟨n, hn⟩ := Decimal.exists_spellsNumeral_write (Decimal.isDigit_shortestFrom _ _ _)
      (Decimal.shortestFrom_ne_nil (Decimal.Interval.positive_around hm q _) (Int.le_refl _) _)
    exact exists_spellsReal_sign (.numeral hn) _

/-- The text of a value is read as some value of its kind. -/
theorem Value.exists_ofChars?_valueChars (v : Value) :
    ∃ w, Value.ofChars? v.kind (Variable.valueChars v) = some w := by
  cases v with
  | real x =>
    obtain ⟨y, hy⟩ := exists_spellsReal x
    refine ⟨.real y, ?_⟩
    simp [Value.kind, Value.ofChars?, Variable.valueChars, Value.text, realText,
      real?_eq_some_iff.mpr hy]
  | boolean b => exact ⟨_, Value.ofChars?_valueChars (by simp)⟩
  | integer i => exact ⟨_, Value.ofChars?_valueChars (by simp)⟩
  | string s => exact ⟨_, Value.ofChars?_valueChars (by simp)⟩

end ProcTree
