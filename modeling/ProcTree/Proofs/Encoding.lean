/-
# The order of texts is the order of their bytes

Texts are ordered as in a dictionary, by the scalar values of their characters.  They can as well
be ordered by the bytes that they are written as.  UTF-8 gives a greater character greater bytes,
and no encoding of a character is the beginning of another one (`lex_utf8EncodeChar`), so that the
first characters in which two texts differ decide both orders (`Text.before_iff_bytes`).
-/
import Mathlib.Data.List.Lex
import Mathlib.Tactic.SplitIfs
import ProcTree.Output

namespace ProcTree

/-! ## 1. Lists of encodings -/

/-- Encoding element by element keeps the order of a dictionary, if the encodings of two elements
that stand in the order differ before either of them ends. -/
theorem lex_flatMap {α β : Type} {r : α → α → Prop} {q : β → β → Prop} {f : α → List β}
    (hne : ∀ a, f a ≠ []) (hf : ∀ a b, r a b → ∀ s t, List.Lex q (f a ++ s) (f b ++ t))
    {xs ys : List α} (h : List.Lex r xs ys) : List.Lex q (xs.flatMap f) (ys.flatMap f) := by
  induction h with
  | @nil b ys =>
    obtain ⟨c, cs, hc⟩ := List.exists_cons_of_ne_nil (hne b)
    rw [List.flatMap_nil, List.flatMap_cons, hc]
    exact .nil
  | rel hab => exact hf _ _ hab _ _
  | cons _ ih => exact ih.append_left q _

/-! ## 2. Bytes of a character -/

/-- Bytes are ordered as the numbers that they stand for. -/
theorem lex_bytes_iff {x y : Nat} (hx : x < 256) (hy : y < 256) {s t : List UInt8} :
    List.Lex (· < ·) (UInt8.ofNat x :: s) (UInt8.ofNat y :: t) ↔
      x < y ∨ x = y ∧ List.Lex (· < ·) s t := by
  rw [List.cons_lex_cons_iff, UInt8.lt_iff_toNat_lt, ← UInt8.toNat_inj,
    UInt8.toNat_ofNat_of_lt' hx, UInt8.toNat_ofNat_of_lt' hy]

/-- Scalar values end below seventeen planes. -/
theorem toNat_lt_of_char (c : Char) : c.toNat < 1114112 := by
  rcases c.valid with h | ⟨-, h⟩
  · exact Nat.lt_trans h (by decide)
  · exact h

/-- **A greater character has greater bytes.**  Of two encodings of different lengths the longer one
starts with a greater byte.  Of two encodings of one length the bytes are the digits of the scalar
value in base sixty-four, the first ones first, so the first digit that differs decides. -/
theorem lex_utf8EncodeChar {c d : Char} (h : c.toNat < d.toNat) (s t : List UInt8) :
    List.Lex (· < ·) (String.utf8EncodeChar c ++ s) (String.utf8EncodeChar d ++ t) := by
  have hd : d.val.toNat < 1114112 := toNat_lt_of_char d
  -- the bytes are quotients and remainders of one number; this is how the quotients hang together
  have digits (v : Nat) (hv : v < 1114112) :
      v / 64 / 64 = v / 4096 ∧ v / 4096 / 64 = v / 262144 ∧ v / 262144 % 8 = v / 262144 := by
    omega
  replace h : c.val.toNat < d.val.toNat := h
  unfold String.utf8EncodeChar
  generalize c.val.toNat = m at h ⊢
  generalize d.val.toNat = n at h hd ⊢
  have hm := digits m (by omega)
  have hn := digits n hd
  simp only
  -- one case for each two lengths: the first byte decides, or the first that differs
  split_ifs <;>
    simp (disch := omega) only [List.cons_append, List.nil_append, lex_bytes_iff] <;> omega

theorem utf8EncodeChar_ne_nil (c : Char) : String.utf8EncodeChar c ≠ [] := by
  unfold String.utf8EncodeChar
  simp only
  split_ifs <;> simp

/-! ## 3. Texts -/

/-- The bytes of a text are those of its characters. -/
theorem Output.encode_eq (s : String) :
    Output.encode s = s.toList.flatMap String.utf8EncodeChar := by
  conv => lhs; rw [← String.ofList_toList (s := s)]
  rw [encode, String.toUTF8_eq_toByteArray, String.toByteArray_ofList, List.utf8Encode,
    List.toList_data_toByteArray]

/-- The first text comes before the second one in the dictionary: it is a proper beginning of it, or
has a character of smaller scalar value where the two differ first. -/
def Text.Before (s t : String) : Prop :=
  List.Lex (fun c d : Char => c.toNat < d.toNat) s.toList t.toList

/-- Comparing texts goes by the dictionary. -/
theorem Text.compare_eq_lt_iff {s t : String} : compare s t = .lt ↔ Text.Before s t := by
  have hlt : compare s t = .lt ↔ s < t := compareOfLessAndEq_eq_lt
  rw [hlt, String.lt_iff]
  exact Iff.rfl

/-- **The order of texts is the order of their bytes.**  Any two texts compare, so it is enough that
encoding keeps the order. -/
theorem Text.before_iff_bytes {s t : String} :
    Text.Before s t ↔ List.Lex (· < ·) (Output.encode s) (Output.encode t) := by
  have keeps {s t : String} (h : Text.Before s t) :
      List.Lex (· < ·) (Output.encode s) (Output.encode t) := by
    rw [Output.encode_eq, Output.encode_eq]
    exact lex_flatMap utf8EncodeChar_ne_nil (fun _ _ => lex_utf8EncodeChar) h
  refine ⟨keeps, fun h => ?_⟩
  rw [← Text.compare_eq_lt_iff]
  cases hc : compare s t with
  | lt => rfl
  | eq =>
    obtain rfl := Std.compare_eq_iff_eq.mp hc
    exact absurd h (List.lex_irrefl (fun b => UInt8.lt_irrefl b) _)
  | gt =>
    have hback := keeps (Text.compare_eq_lt_iff.mp (Std.OrientedCmp.gt_iff_lt.mp hc))
    exact absurd h (List.lex_asymm (fun hxy hyx => UInt8.lt_asymm hxy hyx) hback)

end ProcTree
