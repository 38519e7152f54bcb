/-
# Comma-separated fields

`fields` cuts a text at every comma, and `joinFields` puts commas between texts.  A text without a
comma is one field, so the empty text has one field, the empty one.  `fields_joinFields` says that
fields without commas are found again.
-/

namespace ProcTree.Text

/-- The pieces between the commas, empty ones included. -/
def fields : List Char → List (List Char)
  | [] => [[]]
  | ',' :: r => [] :: fields r
  | c :: r =>
    match fields r with
    | [] => [[c]]
    | field :: rest => (c :: field) :: rest

/-- The texts with a comma between neighbours. -/
def joinFields (ps : List (List Char)) : List Char := List.intercalate [','] ps

theorem joinFields_cons_cons (p q : List Char) (ps : List (List Char)) :
    joinFields (p :: q :: ps) = p ++ ',' :: joinFields (q :: ps) := by
  simp [joinFields, List.intercalate]

theorem fields_of_not_mem {p : List Char} (h : ',' ∉ p) : fields p = [p] := by
  induction p with
  | nil => rfl
  | cons c r ih =>
    rw [List.mem_cons, not_or] at h
    rw [fields, ih h.2]
    exact fun e => h.1 e.symm

theorem fields_append_comma {p : List Char} (h : ',' ∉ p) (r : List Char) :
    fields (p ++ ',' :: r) = p :: fields r := by
  induction p with
  | nil => rfl
  | cons c t ih =>
    rw [List.mem_cons, not_or] at h
    rw [List.cons_append, fields, ih h.2]
    exact fun e => h.1 e.symm

/-- Fields without commas are found again. -/
theorem fields_joinFields {p : List Char} {ps : List (List Char)} (h : ∀ q ∈ p :: ps, ',' ∉ q) :
    fields (joinFields (p :: ps)) = p :: ps := by
  induction ps generalizing p with
  | nil => simpa [joinFields, List.intercalate] using fields_of_not_mem (h p (by simp))
  | cons q qs ih =>
    rw [joinFields_cons_cons, fields_append_comma (h p (by simp)),
      ih fun x hx => h x (List.mem_cons_of_mem p hx)]

end ProcTree.Text
