/-
# Lines and fields of any text

Lines are written with a line feed behind each, and fields with commas between them.  A line that
is written may itself have breaks in it, and then it becomes several lines (`Text.written`); what
was written is found again if it is unbroken (`Text.lines_unlines`).

A field that is written on a line with others is a field of that line whenever it has no comma
(`Text.mem_fields`), and a break behind it does not matter (`Text.exists_written_field`).
-/
import ProcTree.Text.Blank
import ProcTree.Text.Fields
import ProcTree.Text.Lines

namespace ProcTree.Text

/-! ## 1. Unbroken texts -/

/-- Neither a line feed nor a carriage return occurs. -/
def Unbroken (cs : List Char) : Prop := ∀ c ∈ cs, c ≠ '\n' ∧ c ≠ '\r'

namespace Unbroken

theorem feed_not_mem {cs : List Char} (h : Unbroken cs) : '\n' ∉ cs := fun hm => (h '\n' hm).1 rfl

@[simp] theorem nil : Unbroken [] := fun _ h => nomatch h

@[simp] theorem cons_iff {c : Char} {cs : List Char} :
    Unbroken (c :: cs) ↔ (c ≠ '\n' ∧ c ≠ '\r') ∧ Unbroken cs := by simp [Unbroken]

@[simp] theorem append_iff {cs ds : List Char} :
    Unbroken (cs ++ ds) ↔ Unbroken cs ∧ Unbroken ds := by
  simp only [Unbroken, List.mem_append]
  constructor
  · exact fun h => ⟨fun c hc => h c (.inl hc), fun c hc => h c (.inr hc)⟩
  · rintro ⟨h, h'⟩ c (hc | hc)
    · exact h c hc
    · exact h' c hc

theorem of_subset {cs ds : List Char} (h : Unbroken ds) (hs : cs ⊆ ds) : Unbroken cs :=
  fun c hc => h c (hs hc)

end Unbroken

/-- A line with a character that is not blank is not a blank line. -/
theorem isBlankLine_eq_false {line : List Char} {c : Char} (hc : c ∈ line)
    (hb : isBlank c = false) : isBlankLine line = false := by
  rw [isBlankLine, List.all_eq_false]
  exact ⟨c, hc, by simp [hb]⟩

/-- A run of characters of one class is cut off where another character follows. -/
theorem span_append {p : Char → Bool} {run r : List Char} (h : ∀ c ∈ run, p c = true)
    (hr : ∀ c ∈ r.head?, p c = false) :
    (run ++ r).takeWhile p = run ∧ (run ++ r).dropWhile p = r := by
  rw [List.takeWhile_append_of_pos h, List.dropWhile_append_of_pos h]
  cases r with
  | nil => simp
  | cons c r => simp [hr c rfl]

/-- A text without `c` is cut off at the `c` behind it. -/
theorem span_ne_append {c : Char} {cs : List Char} (h : c ∉ cs) (r : List Char) :
    (cs ++ c :: r).takeWhile (· ≠ c) = cs ∧ (cs ++ c :: r).dropWhile (· ≠ c) = c :: r :=
  span_append (fun _ hd => decide_eq_true fun e => h (e ▸ hd)) (by simp)

/-- What holds of texts without `c`, and of a text after `c` if it holds of the rest. -/
theorem split_induction {P : List Char → Prop} (c : Char) (whole : ∀ cs, c ∉ cs → P cs)
    (split : ∀ cs r, c ∉ cs → P r → P (cs ++ c :: r)) (cs : List Char) : P cs := by
  induction hn : cs.length using Nat.strongRecOn generalizing cs with
  | ind n ih =>
    by_cases hm : c ∈ cs
    · obtain ⟨p, r, rfl, hp⟩ := List.eq_append_cons_of_mem hm
      exact split p r hp (ih r.length (by simp at hn; omega) r rfl)
    · exact whole cs hm

/-! ## 2. Lines -/

/-- A line without the carriage return at its end. -/
def chomp (cs : List Char) : List Char := if cs.getLast? = some '\r' then cs.dropLast else cs

theorem chomp_of_unbroken {cs : List Char} (h : Unbroken cs) : chomp cs = cs :=
  if_neg fun hl => (h '\r' (List.mem_of_getLast? hl)).2 rfl

/-- What stands before another character stays. -/
theorem chomp_append_cons {c : Char} (hc : c ≠ '\r') (p cs : List Char) :
    chomp (p ++ c :: cs) = p ++ c :: chomp cs := by
  cases cs with
  | nil => simp [chomp, hc]
  | cons d cs =>
    have hlast : (p ++ c :: d :: cs).getLast? = (d :: cs).getLast? := by
      simp [List.getLast?_append, List.getLast?_cons]
    have hdrop : (p ++ c :: d :: cs).dropLast = p ++ c :: (d :: cs).dropLast := by simp
    rw [chomp, hlast, hdrop, chomp]
    split <;> rfl

/-- Only what is cut off the end is missing. -/
theorem chomp_prefix (cs : List Char) : chomp cs <+: cs := by
  unfold chomp
  split
  · exact List.dropLast_prefix cs
  · exact List.prefix_rfl

/-- A line that ends in a carriage return and a line feed. -/
theorem lines_return {cs : List Char} (h : '\n' ∉ cs) (r : List Char) :
    lines (cs ++ '\r' :: '\n' :: r) = cs :: lines r := by
  induction cs with
  | nil => rfl
  | cons c t ih =>
    rw [List.mem_cons, not_or] at h
    have step := ih h.2
    rw [List.cons_append, lines, step]
    · exact fun e => h.1 e.symm
    · rintro r' rfl e
      cases t with
      | nil => simp at e
      | cons d t =>
        obtain ⟨rfl, -⟩ := List.cons.inj e
        exact h.2 List.mem_cons_self

/-- A line up to its line feed. -/
theorem lines_break {cs : List Char} (h : '\n' ∉ cs) (r : List Char) :
    lines (cs ++ '\n' :: r) = chomp cs :: lines r := by
  by_cases hlast : cs.getLast? = some '\r'
  · obtain ⟨line, rfl⟩ := List.getLast?_eq_some_iff.mp hlast
    have hline : '\n' ∉ line := fun hm => h (List.mem_append_left _ hm)
    rw [chomp, if_pos hlast, List.dropLast_concat, List.append_assoc]
    exact lines_return hline r
  · rw [chomp, if_neg hlast]
    exact lines_append h hlast r

/-- The lines that a written line becomes. -/
def written (cs : List Char) : List (List Char) := lines (cs ++ ['\n'])

theorem written_of_not_mem {cs : List Char} (h : '\n' ∉ cs) : written cs = [chomp cs] :=
  lines_break h []

theorem written_break {cs : List Char} (h : '\n' ∉ cs) (r : List Char) :
    written (cs ++ '\n' :: r) = chomp cs :: written r := by
  rw [written, List.append_assoc, List.cons_append, lines_break h, written]

theorem written_of_unbroken {cs : List Char} (h : Unbroken cs) : written cs = [cs] := by
  rw [written_of_not_mem h.feed_not_mem, chomp_of_unbroken h]

/-- Lines are written one after another, whatever is in them. -/
theorem lines_written (cs r : List Char) : lines (cs ++ '\n' :: r) = written cs ++ lines r := by
  induction cs using split_induction '\n' with
  | whole cs h => rw [written_of_not_mem h, lines_break h, List.singleton_append]
  | split cs rest h ih =>
    rw [List.append_assoc, List.cons_append, lines_break h, ih, written_break h, List.cons_append]

theorem lines_unlines_written (ls : List String) :
    lines (unlines ls).toList = ls.flatMap fun l => written l.toList := by
  rw [unlines, String.toList_ofList]
  induction ls with
  | nil => rfl
  | cons l ls ih =>
    rw [List.flatMap_cons, List.append_assoc, List.singleton_append, lines_written, ih,
      List.flatMap_cons]

/-- **Unbroken lines are found again.** -/
theorem lines_unlines {ls : List String} (h : ∀ l ∈ ls, Unbroken l.toList) :
    lines (unlines ls).toList = ls.map String.toList := by
  have hlines : ls.map (fun l => written l.toList) = ls.map fun l => [l.toList] :=
    List.map_congr_left fun l hl => written_of_unbroken (h l hl)
  rw [lines_unlines_written, List.flatMap_def, hlines, ← List.flatMap_def, ← List.map_eq_flatMap]

/-! ## 3. Fields -/

/-- Commas between unbroken fields do not break a line. -/
theorem unbroken_joinFields {fs : List (List Char)} (h : ∀ f ∈ fs, Unbroken f) :
    Unbroken (joinFields fs) := by
  induction fs with
  | nil => simp [joinFields, List.intercalate]
  | cons f fs ih =>
    have hf := h f List.mem_cons_self
    have hfs := ih fun g hg => h g (List.mem_cons_of_mem f hg)
    cases fs with
    | nil => simpa [joinFields, List.intercalate] using hf
    | cons g gs =>
      rw [joinFields_cons_cons]
      simp [hf, hfs]

/-- The fields before a comma and those after it. -/
theorem fields_append (cs r : List Char) : fields (cs ++ ',' :: r) = fields cs ++ fields r := by
  induction cs using split_induction ',' with
  | whole cs h => rw [fields_append_comma h, fields_of_not_mem h, List.singleton_append]
  | split cs rest h ih =>
    rw [List.append_assoc, List.cons_append, fields_append_comma h, ih, fields_append_comma h,
      List.cons_append]

/-- Nothing, or a comma and more: what may stand after a field. -/
def AfterField (r : List Char) : Prop := ∀ c ∈ r.head?, c = ','

theorem AfterField.append {r s : List Char} (hr : AfterField r) (hs : AfterField s) :
    AfterField (r ++ s) := by
  cases r with
  | nil => exact hs
  | cons c r => exact hr

theorem AfterField.eq_cons {c : Char} {r : List Char} (h : AfterField (c :: r)) : c = ',' :=
  h c rfl

/-- A text without commas between commas is a field. -/
theorem mem_fields {k r : List Char} (hk : ',' ∉ k) (hr : AfterField r) (cs : List Char) :
    k ∈ fields (cs ++ ',' :: (k ++ r)) := by
  rw [fields_append, List.mem_append]
  refine .inr ?_
  cases r with
  | nil => simp [fields_of_not_mem hk]
  | cons c r =>
    obtain rfl := hr.eq_cons
    simp [fields_append_comma hk]

/-- One of the joined fields, with the fields before it and what comes after it. -/
theorem joinFields_append_cons {ps : List (List Char)} (hps : ∀ p ∈ ps, '\n' ∉ p) (f : List Char)
    (qs : List (List Char)) : ∃ cs r, '\n' ∉ cs ∧ AfterField r ∧
      joinFields (ps ++ f :: qs) = cs ++ (f ++ r) := by
  induction ps with
  | nil =>
    cases qs with
    | nil => exact ⟨[], [], by simp, by simp [AfterField], by simp [joinFields]⟩
    | cons q qs =>
      refine ⟨[], ',' :: joinFields (q :: qs), by simp, by simp [AfterField], ?_⟩
      rw [List.nil_append, joinFields_cons_cons, List.nil_append]
  | cons p ps ih =>
    obtain ⟨cs, r, hcs, hr, he⟩ := ih fun q hq => hps q (List.mem_cons_of_mem p hq)
    have hp := hps p List.mem_cons_self
    refine ⟨p ++ ',' :: cs, r, by simp [hp, hcs], hr, ?_⟩
    have hjoin : joinFields (p :: (ps ++ f :: qs)) = p ++ ',' :: joinFields (ps ++ f :: qs) := by
      cases ps <;> exact joinFields_cons_cons p _ _
    rw [List.cons_append, hjoin, he]
    simp

/-- A field of a written line is a field of the first line that it becomes. -/
theorem exists_written_field {k r : List Char} (hk : Unbroken k) (hr : AfterField r)
    {cs : List Char} (hcs : '\n' ∉ cs) :
    ∃ r', AfterField r' ∧ cs ++ ',' :: (k ++ r') ∈ written (cs ++ ',' :: (k ++ r)) := by
  have hk' : '\n' ∉ k := hk.feed_not_mem
  have comma : ∀ s, chomp (cs ++ ',' :: (k ++ ',' :: s)) = cs ++ ',' :: (k ++ ',' :: chomp s) := by
    intro s
    have h := chomp_append_cons (c := ',') (by decide) (cs ++ ',' :: k) s
    simpa using h
  cases r with
  | nil =>
    refine ⟨[], hr, ?_⟩
    rw [List.append_nil, written_of_not_mem (by simp [hcs, hk']),
      chomp_append_cons (by decide), chomp_of_unbroken hk]
    exact List.mem_cons_self
  | cons c s =>
    obtain rfl := hr.eq_cons
    by_cases hs : '\n' ∈ s
    · obtain ⟨a, s, rfl, ha⟩ := List.eq_append_cons_of_mem hs
      refine ⟨',' :: chomp a, by simp [AfterField], ?_⟩
      have hline : cs ++ ',' :: (k ++ ',' :: (a ++ '\n' :: s)) =
          (cs ++ ',' :: (k ++ ',' :: a)) ++ '\n' :: s := by simp
      rw [hline, written_break (by simp [hcs, hk', ha]), comma]
      exact List.mem_cons_self
    · refine ⟨',' :: chomp s, by simp [AfterField], ?_⟩
      rw [written_of_not_mem (by simp [hcs, hk', hs]), comma]
      exact List.mem_cons_self

end ProcTree.Text
