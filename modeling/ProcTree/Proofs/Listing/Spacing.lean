/-
# Line endings and blank lines do not matter

A text can be spaced in another way: line feeds become a carriage return and a line feed, and lines
of blanks are put in between lines (`Text.Respaces`).  Such a text is read as the same listing, or
it is refused for the same line, which then has another number (`Listing.ofText_respaced`).

* `Text.Respaces.lines`: respacing a text pads its lines with blank ones (`Text.Padded`), if none of
  its own line feeds has a carriage return before it.
* `Text.Padded.stands`: every line is found as many places further down as lines were put in before
  it, and so is the end.
* Each of the three functions that read lines reads padded lines like the others, up to the numbers
  of lines (`Error.renumber`).
-/
import ProcTree.Proofs.Listing.Acceptance

namespace ProcTree

/-! ## 1. Respaced texts -/

namespace Text

/-- How far what comes after a line is moved, if nothing is put in before that line. -/
def pastLine (moved : Nat → Nat) : Nat → Nat
  | 0 => 0
  | k + 1 => moved k

/-- The second text is the first one with some line feeds turned into a carriage return and a line
feed, and with lines of blanks put in between lines.  What comes after `k` lines of the first text,
a line or the end, has `moved k` of the new lines before it. -/
inductive Respaces : (Nat → Nat) → List Char → List Char → Prop
  /-- What is left after the last line feed stays as it is. -/
  | rest {cs : List Char} (h : '\n' ∉ cs) : Respaces (fun _ => 0) cs cs
  | feed {moved : Nat → Nat} {cs r r' : List Char} (h : '\n' ∉ cs) (hr : Respaces moved r r') :
    Respaces (pastLine moved) (cs ++ '\n' :: r) (cs ++ '\n' :: r')
  | returnFeed {moved : Nat → Nat} {cs r r' : List Char} (h : '\n' ∉ cs)
    (hr : Respaces moved r r') :
    Respaces (pastLine moved) (cs ++ '\n' :: r) (cs ++ '\r' :: '\n' :: r')
  | blank {moved : Nat → Nat} {bs r r' : List Char} (hb : isBlankLine bs = true) (hf : '\n' ∉ bs)
    (hr : Respaces moved r r') : Respaces (fun k => moved k + 1) r (bs ++ '\n' :: r')
  /-- A last line of blanks needs no line feed. -/
  | last {bs : List Char} (hb : isBlankLine bs = true) (hf : '\n' ∉ bs) (hne : bs ≠ []) :
    Respaces (fun _ => 1) [] bs

/-- The second list has the lines of the first one, with blank lines between them. -/
inductive Padded : (Nat → Nat) → List (List Char) → List (List Char) → Prop
  | nil : Padded (fun _ => 0) [] []
  | line {moved : Nat → Nat} (l : List Char) {ls ls' : List (List Char)}
    (h : Padded moved ls ls') : Padded (pastLine moved) (l :: ls) (l :: ls')
  | blank {moved : Nat → Nat} {b : List Char} {ls ls' : List (List Char)}
    (hb : isBlankLine b = true) (h : Padded moved ls ls') :
    Padded (fun k => moved k + 1) ls (b :: ls')

/-- Each line of the first list stands in the second one so much further down, in the same order,
and the second list is so much longer. -/
structure Stands (moved : Nat → Nat) (ls ls' : List (List Char)) : Prop where
  monotone : ∀ k, moved k ≤ moved (k + 1)
  line : ∀ k, k < ls.length → ls'[k + moved k]? = ls[k]?
  ending : ls'.length = ls.length + moved ls.length

variable {moved : Nat → Nat} {cs cs' : List Char} {ls ls' : List (List Char)}

theorem Padded.refl (ls : List (List Char)) : Padded (fun _ => 0) ls ls := by
  have hnext : pastLine (fun _ => 0) = fun _ => 0 := by
    funext k
    cases k <;> rfl
  induction ls with
  | nil => exact .nil
  | cons l ls ih =>
    have h := ih.line l
    rwa [hnext] at h

/-- Padding moves lines as far as it says. -/
theorem Padded.stands (h : Padded moved ls ls') : Stands moved ls ls' := by
  induction h with
  | nil => exact ⟨fun _ => Nat.le_refl _, fun k hk => absurd hk (Nat.not_lt_zero k), rfl⟩
  | @line moved l ls ls' _ ih =>
    refine ⟨fun k => ?_, fun k hk => ?_, ?_⟩
    · cases k with
      | zero => exact Nat.zero_le _
      | succ k => exact ih.monotone k
    · cases k with
      | zero => rfl
      | succ k =>
        have hplace : k + 1 + pastLine moved (k + 1) = k + moved k + 1 := by
          rw [pastLine]
          omega
        rw [hplace, List.getElem?_cons_succ, List.getElem?_cons_succ]
        exact ih.line k (Nat.lt_of_succ_lt_succ hk)
    · rw [List.length_cons, List.length_cons, pastLine, ih.ending]
      omega
  | @blank moved b ls ls' _ _ ih =>
    refine ⟨fun k => Nat.succ_le_succ (ih.monotone k), fun k hk => ?_, ?_⟩
    · rw [← Nat.add_assoc, List.getElem?_cons_succ]
      exact ih.line k hk
    · rw [List.length_cons, ih.ending]
      rfl

/-- A blank line is blank without the carriage return at its end. -/
theorem isBlankLine_chomp (h : isBlankLine cs = true) : isBlankLine (chomp cs) = true := by
  have hsub := List.IsPrefix.subset <| chomp_prefix cs
  exact List.all_eq_true.mpr fun c hc => List.all_eq_true.mp h c (hsub hc)

/-- A line feed without a carriage return before it ends a line that is not chomped. -/
theorem chomp_of_not_infix {r : List Char} (h : ¬['\r', '\n'] <:+: cs ++ '\n' :: r) :
    chomp cs = cs := by
  refine if_neg fun hlast => h ?_
  obtain ⟨p, rfl⟩ := List.getLast?_eq_some_iff.mp hlast
  exact ⟨p, r, by simp⟩

/-- **A respaced text** has the lines of the text, padded. -/
theorem Respaces.lines (h : Respaces moved cs cs') (hcr : ¬['\r', '\n'] <:+: cs) :
    Padded moved (lines cs) (lines cs') := by
  have after : ∀ {p r : List Char}, ¬['\r', '\n'] <:+: p ++ '\n' :: r → ¬['\r', '\n'] <:+: r :=
    fun {p r} hp hr => hp (hr.trans ⟨p ++ ['\n'], [], by simp⟩)
  induction h with
  | rest h => exact .refl _
  | feed h _ ih =>
    rw [lines_break h, lines_break h, chomp_of_not_infix hcr]
    exact (ih (after hcr)).line _
  | returnFeed h _ ih =>
    rw [lines_break h, lines_return h, chomp_of_not_infix hcr]
    exact (ih (after hcr)).line _
  | blank hb hf _ ih =>
    rw [lines_break hf]
    exact (ih hcr).blank (isBlankLine_chomp hb)
  | last hb hf hne =>
    rw [lines_last hf hne]
    exact Padded.nil.blank hb

end Text

/-! ## 2. Reading padded lines -/

/-- The same error, about a line with another number. -/
def Error.renumber (number : Nat → Nat) : Error → Error
  | .malformedListing n text => .malformedListing (number n) text
  | e => e

theorem mapError_bind {α β : Type} (f : Error → Error) (x : Except Error α)
    (g : α → Except Error β) :
    (x >>= g).mapError f = x.mapError f >>= fun a => (g a).mapError f := by
  cases x <;> rfl

theorem mapError_map {α β : Type} (f : Error → Error) (x : Except Error α) (g : α → β) :
    (x.map g).mapError f = (x.mapError f).map g := by
  cases x <;> rfl

namespace Listing
open Text (Padded pastLine)

section

variable {moved number : Nat → Nat} {ls ls' : List (List Char)} {n n' : Nat}

theorem readVariable_renumber (hn : number n = n') (line : List Char) :
    readVariable n' line = (readVariable n line).mapError (Error.renumber number) := by
  subst hn
  unfold readVariable
  cases ListedVariable.ofLine? line <;> rfl

theorem readInstruction_renumber (hn : number n = n') (line : List Char) :
    readInstruction n' line = (readInstruction n line).mapError (Error.renumber number) := by
  subst hn
  unfold readInstruction
  split
  · rfl
  · split <;> rfl

/-- The numbers after a line, from those at the line. -/
theorem number_pastLine (h : ∀ k, number (n + k) = n' + k + pastLine moved k) (k : Nat) :
    number (n + 1 + k) = n' + 1 + k + moved k := by
  have hk := h (k + 1)
  rw [pastLine] at hk
  rw [Nat.add_right_comm, Nat.add_assoc, hk]
  omega

theorem number_blank (h : ∀ k, number (n + k) = n' + k + (moved k + 1)) (k : Nat) :
    number (n + k) = n' + 1 + k + moved k := by
  rw [h]
  omega

theorem readCode_padded (h : Padded moved ls ls')
    (hnumber : ∀ k, number (n + k) = n' + k + moved k) :
    readCode n' ls' = (readCode n ls).mapError (Error.renumber number) := by
  induction h generalizing n n' with
  | nil => rfl
  | line line _ ih =>
    have hrest := ih (number_pastLine hnumber)
    rw [readCode, readCode]
    split
    · exact hrest
    · have hn : number n = n' := hnumber 0
      rw [readInstruction_renumber hn, hrest]
      simp only [mapError_bind]
      rfl
  | blank hb _ ih =>
    rw [readCode, if_pos hb]
    exact ih (number_blank hnumber)

theorem readVariables_padded (h : Padded moved ls ls')
    (hnumber : ∀ k, number (n + k) = n' + k + moved k) :
    readVariables n' ls' = (readVariables n ls).mapError (Error.renumber number) := by
  induction h generalizing n n' with
  | nil =>
    have hn : number n = n' := hnumber 0
    subst hn
    rfl
  | line line hrest ih =>
    have hnext := number_pastLine hnumber
    rw [readVariables, readVariables]
    split
    · exact ih hnext
    · split
      · rw [readCode_padded hrest hnext, mapError_map]
      · have hn : number n = n' := hnumber 0
        rw [readVariable_renumber hn, ih hnext]
        simp only [mapError_bind]
        rfl
  | blank hb _ ih =>
    rw [readVariables, if_pos hb]
    exact ih (number_blank hnumber)

theorem readLines_padded (h : Padded moved ls ls')
    (hnumber : ∀ k, number (n + k) = n' + k + moved k) :
    readLines n' ls' = (readLines n ls).mapError (Error.renumber number) := by
  induction h generalizing n n' with
  | nil =>
    have hn : number n = n' := hnumber 0
    subst hn
    rfl
  | line line hrest ih =>
    have hnext := number_pastLine hnumber
    rw [readLines, readLines]
    split
    · exact ih hnext
    · split
      · exact readVariables_padded hrest hnext
      · have hn : number n = n' := hnumber 0
        subst hn
        rfl
  | blank hb _ ih =>
    rw [readLines, if_pos hb]
    exact ih (number_blank hnumber)

end

/-- **Line endings and blank lines do not matter.**  Respace a text in which no line feed has a
carriage return before it.  Then both texts are read as the same listing, or both are refused with
the same error, but for the number of the line: a line, or the end, that was moved has the number of
its new place. -/
theorem ofText_respaced {moved : Nat → Nat} {text text' : String}
    (hcr : ¬['\r', '\n'] <:+: text.toList)
    (h : Text.Respaces moved text.toList text'.toList) :
    ofText text' =
        (ofText text).mapError (Error.renumber fun number => number + moved (number - 1)) ∧
      Text.Stands moved (Text.lines text.toList) (Text.lines text'.toList) := by
  have hpadded := h.lines hcr
  refine ⟨readLines_padded hpadded fun k => ?_, hpadded.stands⟩
  rw [Nat.add_sub_cancel_left]

/-- The theorem at work on a text whose fourth and last line is malformed and has no line feed, and
whose string has a raw carriage return in it.  In the respaced text it is the eighth line. -/
theorem ofText_respaced_malformed :
    let declaration := "    %var\t@s,String,\"a\rb\""
    let text := beginMarker ++ "\n" ++ declaration ++ "\n" ++ endMarker ++ "\n" ++ "\tjumpOp\t@s"
    let text' := "\u2003\n" ++ beginMarker ++ "\r\n\r\n" ++ declaration ++ "\n \t\r\n" ++
      endMarker ++ "\r\n\u0085\n" ++ "\tjumpOp\t@s"
    ¬['\r', '\n'] <:+: text.toList ∧
      (∃ moved, Text.Respaces moved text.toList text'.toList ∧ moved 3 = 4) ∧
      ofText text = .error (.malformedListing 4 "\tjumpOp\t@s") ∧
      ofText text' = .error (.malformedListing 8 "\tjumpOp\t@s") := by
  intro declaration text text'
  have hcr : ¬['\r', '\n'] <:+: text.toList := by decide +kernel
  have htext : text.toList = beginMarker.toList ++ '\n' :: (declaration.toList ++
      '\n' :: (endMarker.toList ++ '\n' :: "\tjumpOp\t@s".toList)) := by simp [text]
  have htext' : text'.toList = ['\u2003'] ++ '\n' :: (beginMarker.toList ++ '\r' :: '\n' ::
      (['\r'] ++ '\n' :: (declaration.toList ++ '\n' :: ([' ', '\t', '\r'] ++ '\n' ::
        (endMarker.toList ++ '\r' :: '\n' :: (['\u0085'] ++ '\n' ::
          "\tjumpOp\t@s".toList)))))) := by simp [text']
  obtain ⟨moved, hrespaces, hmoved⟩ :
      ∃ moved, Text.Respaces moved text.toList text'.toList ∧ moved 3 = 4 := by
    rw [htext, htext']
    exact ⟨_, .blank (by decide) (by decide) (.returnFeed (by decide)
      (.blank (by decide) (by decide) (.feed (by decide)
        (.blank (by decide) (by decide) (.returnFeed (by decide)
          (.blank (by decide) (by decide) (.rest (by decide)))))))), rfl⟩
  have hread : ofText text = .error (.malformedListing 4 "\tjumpOp\t@s") := by decide +kernel
  refine ⟨hcr, ⟨moved, hrespaces, hmoved⟩, hread, ?_⟩
  rw [(ofText_respaced hcr hrespaces).1, hread]
  simp [Except.mapError, Error.renumber, hmoved]

end Listing
end ProcTree
