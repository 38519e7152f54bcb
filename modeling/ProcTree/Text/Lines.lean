/-
# Lines of a text

A line ends at a line feed, and one carriage return right before that line feed belongs to the
ending.  A last line without a line feed keeps its carriage returns, and a text that ends in a
line feed has no empty line after it.  `lines_append` says that a line without line breaks in it is
found again.
-/

namespace ProcTree.Text

/-- The lines of a text, without their endings. -/
def lines : List Char → List (List Char)
  | [] => []
  | '\n' :: r => [] :: lines r
  | '\r' :: '\n' :: r => [] :: lines r
  | c :: r =>
    match lines r with
    | [] => [[c]]
    | line :: rest => (c :: line) :: rest

/-- The text of the given lines, each ended by a line feed. -/
def unlines (ls : List String) : String :=
  String.ofList (ls.flatMap fun l => l.toList ++ ['\n'])

/-- A line that does not end in a carriage return is found again. -/
theorem lines_append {l : List Char} (h : '\n' ∉ l) (h' : l.getLast? ≠ some '\r') (r : List Char) :
    lines (l ++ '\n' :: r) = l :: lines r := by
  induction l with
  | nil => rfl
  | cons c t ih =>
    rw [List.mem_cons, not_or] at h
    cases t with
    | nil =>
      have hc : c ≠ '\r' := by simpa using h'
      simp [lines, Ne.symm h.1, hc]
    | cons d t =>
      have hd : d ≠ '\n' := fun e => h.2 (by simp [e])
      have step := ih h.2 (by simpa [List.getLast?_cons_cons] using h')
      simp only [List.cons_append] at step ⊢
      rw [lines, step]
      · exact fun e => h.1 e.symm
      · rintro r' rfl e
        simp only [List.cons.injEq] at e
        exact hd e.1

end ProcTree.Text
