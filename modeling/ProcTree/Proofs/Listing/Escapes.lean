/-
# Escapes in string literals

What `Text.escape` writes and what `Text.unescape?` reads are inverse to each other.  Reading goes
piece by piece, and a piece is one plain character or an escape of two (`Piece`), so where a
backslash stands among others decides what it does: of a row of backslashes every second one is
escaped by the one before it.  After whole pieces the row is even (`backslashes_flatten`), and so
the backslash that the next piece starts with escapes what follows.

* `exists_unescape?_iff`: a text is read exactly if it is a sequence of pieces.
* `backslashes_of_quote`: in such a text every quote is escaped.
* `escape_eq_of_spells`: a text without line breaks and tabs is what is written of its string.

`escape_inverse` puts them together.
-/
import Mathlib.Data.List.DropRight
import ProcTree.Proofs.Listing.Values

namespace ProcTree
namespace Text

/-! ## 1. What is written -/

theorem escapeChar_of_mem {c d : Char} (h : (c, d) ∈ escapes) : escapeChar d = ['\\', c] := by
  simp only [escapes, List.mem_cons, Prod.mk.injEq, List.not_mem_nil, or_false] at h
  obtain ⟨rfl, rfl⟩ | ⟨rfl, rfl⟩ | ⟨rfl, rfl⟩ | ⟨rfl, rfl⟩ | ⟨rfl, rfl⟩ := h <;> rfl

theorem escapeChar_of_not_mem {d : Char} (h : d ∉ escapes.map Prod.snd) : escapeChar d = [d] := by
  unfold escapeChar
  split <;> simp_all [escapes]

theorem tab_not_mem_escape (s : List Char) : '\t' ∉ escape s := by
  intro h
  obtain ⟨d, -, hd⟩ := List.mem_flatMap.mp h
  by_cases hmem : d ∈ escapes.map Prod.snd
  · obtain ⟨⟨c, d⟩, hc, rfl⟩ := List.mem_map.mp hmem
    rw [escapeChar_of_mem hc] at hd
    obtain rfl : '\t' = c := by simpa using hd
    exact absurd hc (by simp [escapes])
  · rw [escapeChar_of_not_mem hmem, List.mem_singleton] at hd
    exact hmem (hd ▸ by decide)

/-- A text that can be read, and has no line break and no tab, is what is written of its string. -/
theorem escape_eq_of_spells {cs s : List Char} (h : SpellsText cs s) (hbreak : Unbroken cs)
    (htab : '\t' ∉ cs) : escape s = cs := by
  induction h with
  | nil => rfl
  | @plain c cs s hc hq _ ih =>
    rw [Unbroken.cons_iff] at hbreak
    rw [List.mem_cons, not_or] at htab
    have hplain : escapeChar c = [c] := escapeChar_of_not_mem (by
      simp [escapes, hc, hq, hbreak.1, Ne.symm htab.1])
    rw [escape_cons, hplain, ih hbreak.2 htab.2]
    rfl
  | @escape c d cs s hc _ ih =>
    rw [Unbroken.cons_iff, Unbroken.cons_iff] at hbreak
    simp only [List.mem_cons, not_or] at htab
    rw [escape_cons, escapeChar_of_mem hc, ih hbreak.2.2 htab.2.2]
    rfl

/-! ## 2. Pieces -/

/-- A character that stands for itself, or a backslash and a character that it escapes. -/
inductive Piece : List Char → Prop
  | plain {c : Char} (hc : c ≠ '\\') (hq : c ≠ '"') : Piece [c]
  | escape {c d : Char} (h : (c, d) ∈ escapes) : Piece ['\\', c]

/-- **A text is read** exactly if it is a sequence of pieces. -/
theorem exists_unescape?_iff {cs : List Char} : (∃ s, unescape? cs = some s) ↔
    ∃ pieces : List (List Char), cs = pieces.flatten ∧ ∀ p ∈ pieces, Piece p := by
  simp only [unescape?_eq_some_iff]
  constructor
  · rintro ⟨s, h⟩
    induction h with
    | nil => exact ⟨[], rfl, by simp⟩
    | @plain c _ _ hc hq _ ih =>
      obtain ⟨pieces, rfl, hpieces⟩ := ih
      exact ⟨[c] :: pieces, rfl, List.forall_mem_cons.mpr ⟨.plain hc hq, hpieces⟩⟩
    | @escape c _ _ _ hc _ ih =>
      obtain ⟨pieces, rfl, hpieces⟩ := ih
      exact ⟨['\\', c] :: pieces, rfl, List.forall_mem_cons.mpr ⟨.escape hc, hpieces⟩⟩
  · rintro ⟨pieces, rfl, hpieces⟩
    induction pieces with
    | nil => exact ⟨[], .nil⟩
    | cons p pieces ih =>
      obtain ⟨hp, hpieces⟩ := List.forall_mem_cons.mp hpieces
      obtain ⟨s, hs⟩ := ih hpieces
      cases hp with
      | plain hc hq => exact ⟨_, .plain hc hq hs⟩
      | escape hc => exact ⟨_, .escape hc hs⟩

/-! ## 3. Rows of backslashes -/

/-- The number of backslashes in a row at the end of a text. -/
def backslashes (cs : List Char) : Nat := (cs.rtakeWhile (· = '\\')).length

theorem backslashes_concat (cs : List Char) : backslashes (cs ++ ['\\']) = backslashes cs + 1 := by
  rw [backslashes, List.rtakeWhile_concat_pos _ _ _ (by simp), List.length_append]
  rfl

theorem backslashes_concat_of_ne {c : Char} (hc : c ≠ '\\') (cs : List Char) :
    backslashes (cs ++ [c]) = 0 := by
  rw [backslashes, List.rtakeWhile_concat_neg _ _ _ (by simpa using hc)]
  rfl

/-- After whole pieces no backslash is left to escape anything. -/
theorem backslashes_flatten {pieces : List (List Char)} (h : ∀ p ∈ pieces, Piece p) :
    backslashes pieces.flatten % 2 = 0 := by
  -- Only the last piece counts, unless it is an escaped backslash, which adds two.
  induction pieces using List.reverseRecOn with
  | nil => rfl
  | append_singleton pieces p ih =>
    rw [List.forall_mem_append, List.forall_mem_singleton] at h
    rw [List.flatten_concat]
    cases h.2 with
    | plain hc hq => rw [backslashes_concat_of_ne hc]
    | @escape c d hc =>
      rw [List.append_cons]
      by_cases hback : c = '\\'
      · rw [hback, backslashes_concat, backslashes_concat, Nat.add_assoc, Nat.add_mod_right]
        exact ih h.1
      · rw [backslashes_concat_of_ne hback]

/-- A quote within a piece is what the piece escapes. -/
theorem Piece.eq_of_quote {before after : List Char} (h : Piece (before ++ '"' :: after)) :
    before = ['\\'] := by
  generalize hp : before ++ '"' :: after = p at h
  cases h with
  | plain hc hq =>
    obtain ⟨-, hquote⟩ | ⟨-, hnil⟩ := List.append_eq_singleton_iff.mp hp
    · exact absurd (List.cons.inj hquote).1.symm hq
    · cases hnil
  | escape hc =>
    obtain ⟨-, hquote⟩ | ⟨rest, rfl, hrest⟩ := List.append_eq_cons_iff.mp hp
    · exact absurd (List.cons.inj hquote).1 (by decide)
    · obtain ⟨rfl, -⟩ | ⟨-, hnil⟩ := List.append_eq_singleton_iff.mp hrest.symm
      · rfl
      · cases hnil

/-- **Every quote is escaped** in a sequence of pieces: the row of backslashes before it is odd. -/
theorem backslashes_of_quote {pieces : List (List Char)} (h : ∀ p ∈ pieces, Piece p)
    {before after : List Char} (hsplit : pieces.flatten = before ++ '"' :: after) :
    backslashes before % 2 = 1 := by
  obtain ⟨done, rest, rfl, rfl, hrest⟩ | ⟨done, start, c, rest, others, rfl, rfl, hrest⟩ :=
    List.flatten_eq_append_iff.mp hsplit
  · -- no piece starts with a quote
    obtain ⟨empty, p, others, rfl, -⟩ := List.flatten_eq_cons_iff.mp hrest.symm
    have hp : Piece ([] ++ '"' :: p) := h _ (by simp)
    exact absurd hp.eq_of_quote (by simp)
  · obtain ⟨rfl, -⟩ := List.cons.inj hrest
    rw [List.forall_mem_append, List.forall_mem_cons] at h
    have heven := backslashes_flatten h.1
    rw [h.2.1.eq_of_quote, backslashes_concat]
    omega

/-! ## 4. The inverse -/

/-- **Writing and reading the inside of a literal are inverse.**  What is written is read back and
stands on one line without tabs; every quote in it is escaped, and the quote that closes the literal
after it is not.  A text is read exactly if it is a sequence of plain characters and escapes, and if
it has no line break and no tab, writing what was read gives the text again. -/
theorem escape_inverse :
    (∀ s : List Char, unescape? (escape s) = some s ∧ Unbroken (escape s) ∧ '\t' ∉ escape s ∧
      (∀ before after, escape s = before ++ '"' :: after → backslashes before % 2 = 1) ∧
      backslashes (escape s) % 2 = 0) ∧
    ∀ cs : List Char,
      ((∃ s, unescape? cs = some s) ↔
        ∃ pieces : List (List Char), cs = pieces.flatten ∧ ∀ p ∈ pieces, Piece p) ∧
      ∀ s, unescape? cs = some s → Unbroken cs → '\t' ∉ cs → escape s = cs := by
  refine ⟨fun s => ?_, fun cs => ⟨exists_unescape?_iff, fun s hs hbreak htab => ?_⟩⟩
  · -- what is written can be read, so it is made of pieces
    obtain ⟨pieces, hescape, hpieces⟩ := exists_unescape?_iff.mp ⟨s, unescape?_escape s⟩
    refine ⟨unescape?_escape s, unbroken_escape s, tab_not_mem_escape s, ?_, ?_⟩
    · intro before after hsplit
      exact backslashes_of_quote hpieces (hescape ▸ hsplit)
    · rw [hescape]
      exact backslashes_flatten hpieces
  · exact escape_eq_of_spells (unescape?_eq_some_iff.mp hs) hbreak htab

/-- The theorem at work on three backslashes before a quote, and two before a letter that would be
a line break after one. -/
theorem escape_inverse_rows :
    let s : List Char := ['\\', '"', '\\', 'n']
    let cs : List Char := ['\\', '\\', '\\', '"', '\\', '\\', 'n']
    unescape? cs = some s ∧ Unbroken cs ∧ '\t' ∉ cs ∧ escape s = cs ∧
      backslashes ['\\', '\\', '\\'] % 2 = 1 := by
  intro s cs
  have hread : unescape? cs = some s := by decide
  have hbreak : Unbroken cs := by simp [cs, Unbroken]
  have htab : '\t' ∉ cs := by simp [cs]
  have hwritten : escape s = cs := (escape_inverse.2 cs).2 s hread hbreak htab
  have hquote := (escape_inverse.1 s).2.2.2.1 ['\\', '\\', '\\'] ['\\', '\\', 'n'] hwritten
  exact ⟨hread, hbreak, htab, hwritten, hquote⟩

end Text
end ProcTree
