/-
# What a failed check reports

Two searches for a fault stand behind the checks of code and of listings: one for an element that
is repeated, and one for an element that is not known.  Each finds the first one, which is said here
without the search (`FirstRepeat`, `FirstMissing`).

The check of labels accepts labels that pair up (`checkPairing_eq_ok_iff`) and otherwise reports the
first label that is repeated, or the first target without a label (`checkPairing_eq_error_iff`).
The order of labels and of targets decides what is reported and not whether anything is
(`checkPairing_exact`).
-/
import Mathlib.Data.List.Nodup
import Mathlib.Data.List.Perm.Basic
import ProcTree.Code.Pairing

namespace ProcTree

/-! ## 1. The first fault in a list -/

section
variable {α : Type}

/-- The element equals an earlier one, and it is the first that does. -/
def FirstRepeat (as : List α) (a : α) : Prop :=
  ∃ before after, as = before ++ a :: after ∧ before.Nodup ∧ a ∈ before

/-- The element is the first that is not among the known ones. -/
def FirstMissing (known as : List α) (a : α) : Prop :=
  ∃ before after, as = before ++ a :: after ∧ before ⊆ known ∧ a ∉ known

variable [DecidableEq α] {seen as known : List α} {a : α}

/-- No element equals an earlier one. -/
theorem firstRepeat?_eq_none_iff :
    firstRepeat? seen as = none ↔ as.Nodup ∧ ∀ a ∈ as, a ∉ seen := by
  induction as generalizing seen with
  | nil => simp [firstRepeat?]
  | cons a as ih =>
    rw [firstRepeat?, List.nodup_cons]
    split
    · next ha => simp [ha]
    · next ha =>
      rw [ih]
      constructor
      · rintro ⟨hn, hs⟩
        refine ⟨⟨fun h => (hs a h) List.mem_cons_self, hn⟩, ?_⟩
        intro x hx
        rcases List.mem_cons.mp hx with rfl | hx
        · exact ha
        · exact fun h => hs x hx (List.mem_cons_of_mem a h)
      · rintro ⟨⟨hna, hn⟩, hs⟩
        refine ⟨hn, ?_⟩
        intro x hx h
        rcases List.mem_cons.mp h with rfl | h
        · exact hna hx
        · exact hs x (List.mem_cons_of_mem a hx) h

theorem firstRepeat?_nil_eq_none_iff : firstRepeat? [] as = none ↔ as.Nodup := by
  simp [firstRepeat?_eq_none_iff]

/-- The search stops at an element that it has seen, having found none before. -/
theorem firstRepeat?_eq_some_iff : firstRepeat? seen as = some a ↔
    ∃ before after, as = before ++ a :: after ∧ firstRepeat? seen before = none ∧
      (a ∈ before ∨ a ∈ seen) := by
  induction as generalizing seen with
  | nil => simp [firstRepeat?]
  | cons b as ih =>
    rw [firstRepeat?]
    split
    · next hb =>
      -- The search stops at once, so nothing comes before what it finds.
      rw [Option.some.injEq]
      constructor
      · rintro rfl
        exact ⟨[], as, rfl, rfl, .inr hb⟩
      · rintro ⟨before, after, hsplit, hnone, -⟩
        cases before with
        | nil => exact (List.cons.inj hsplit).1
        | cons c before =>
          obtain ⟨rfl, -⟩ := List.cons.inj hsplit
          rw [firstRepeat?, if_pos hb] at hnone
          cases hnone
    · next hb =>
      -- The search goes on and has seen one element more, which is the first one before its find.
      rw [ih]
      constructor
      · rintro ⟨before, after, rfl, hnone, ha⟩
        refine ⟨b :: before, after, rfl, ?_, ?_⟩
        · rw [firstRepeat?, if_neg hb]
          exact hnone
        · simpa [or_assoc, or_left_comm] using ha
      · rintro ⟨before, after, hsplit, hnone, ha⟩
        cases before with
        | nil =>
          obtain ⟨rfl, -⟩ := List.cons.inj hsplit
          exact absurd (ha.resolve_left (by simp)) hb
        | cons c before =>
          obtain ⟨rfl, rfl⟩ := List.cons.inj hsplit
          rw [firstRepeat?, if_neg hb] at hnone
          refine ⟨before, after, rfl, hnone, ?_⟩
          simpa [or_assoc, or_left_comm] using ha

/-- **The search for a repeated element** finds the first one. -/
theorem firstRepeat?_nil_eq_some_iff : firstRepeat? [] as = some a ↔ FirstRepeat as a := by
  simp only [firstRepeat?_eq_some_iff, firstRepeat?_nil_eq_none_iff, List.not_mem_nil, or_false]
  rfl

theorem exists_firstRepeat (h : ¬as.Nodup) : ∃ a, FirstRepeat as a := by
  obtain ⟨a, ha⟩ := Option.ne_none_iff_exists'.mp (mt firstRepeat?_nil_eq_none_iff.mp h)
  exact ⟨a, firstRepeat?_nil_eq_some_iff.mp ha⟩

theorem find?_missing_eq_none_iff : as.find? (fun x => decide (x ∉ known)) = none ↔ as ⊆ known := by
  simp only [List.find?_eq_none, decide_eq_true_eq, not_not]
  rfl

/-- **The search for an unknown element** finds the first one. -/
theorem find?_missing_eq_some_iff :
    as.find? (fun x => decide (x ∉ known)) = some a ↔ FirstMissing known as a := by
  rw [List.find?_eq_some_iff_append]
  constructor
  · rintro ⟨ha, before, after, hsplit, hbefore⟩
    exact ⟨before, after, hsplit, fun x hx => by simpa using hbefore x hx, by simpa using ha⟩
  · rintro ⟨before, after, hsplit, hbefore, ha⟩
    exact ⟨by simpa using ha, before, after, hsplit, fun x hx => by simpa using hbefore hx⟩

theorem exists_firstMissing (h : ¬as ⊆ known) : ∃ a, FirstMissing known as a := by
  obtain ⟨a, ha⟩ := Option.ne_none_iff_exists'.mp (mt find?_missing_eq_none_iff.mp h)
  exact ⟨a, find?_missing_eq_some_iff.mp ha⟩

end

/-! ## 2. The check of labels -/

/-- What is wrong with labels and targets that do not pair up: a repeated label comes before any
target. -/
inductive Mispaired (attached targets : List Label) : Error → Prop
  | duplicate {l : Label} (h : FirstRepeat attached l) :
    Mispaired attached targets (.duplicateLabel l)
  | dangling {l : Label} (hn : attached.Nodup) (h : FirstMissing attached targets l) :
    Mispaired attached targets (.danglingLabel l)

variable {attached targets : List Label}

/-- Either nothing is wrong, or there is a first fault. -/
theorem nodup_subset_or_mispaired (attached targets : List Label) :
    (attached.Nodup ∧ targets ⊆ attached) ∨ ∃ e, Mispaired attached targets e := by
  by_cases hn : attached.Nodup
  · by_cases hs : targets ⊆ attached
    · exact .inl ⟨hn, hs⟩
    · obtain ⟨l, hl⟩ := exists_firstMissing hs
      exact .inr ⟨_, .dangling hn hl⟩
  · obtain ⟨l, hl⟩ := exists_firstRepeat hn
    exact .inr ⟨_, .duplicate hl⟩

theorem checkPairing_of_mispaired {e : Error} (h : Mispaired attached targets e) :
    checkPairing attached targets = .error e := by
  cases h with
  | duplicate hl => rw [checkPairing, firstRepeat?_nil_eq_some_iff.mpr hl]
  | dangling hn hl =>
    rw [checkPairing, firstRepeat?_nil_eq_none_iff.mpr hn, find?_missing_eq_some_iff.mpr hl]

theorem checkPairing_of_subset (hn : attached.Nodup) (hs : targets ⊆ attached) :
    checkPairing attached targets = .ok () := by
  rw [checkPairing, firstRepeat?_nil_eq_none_iff.mpr hn, find?_missing_eq_none_iff.mpr hs]

/-- **The check accepts** distinct labels and targets that are among them, and nothing else. -/
theorem checkPairing_eq_ok_iff :
    checkPairing attached targets = .ok () ↔ attached.Nodup ∧ targets ⊆ attached := by
  refine ⟨fun h => ?_, fun ⟨hn, hs⟩ => checkPairing_of_subset hn hs⟩
  obtain hpairs | ⟨e, he⟩ := nodup_subset_or_mispaired attached targets
  · exact hpairs
  · rw [checkPairing_of_mispaired he] at h
    cases h

/-- **The check reports** what is wrong. -/
theorem checkPairing_eq_error_iff {e : Error} :
    checkPairing attached targets = .error e ↔ Mispaired attached targets e := by
  refine ⟨fun h => ?_, checkPairing_of_mispaired⟩
  obtain ⟨hn, hs⟩ | ⟨e', he⟩ := nodup_subset_or_mispaired attached targets
  · rw [checkPairing_of_subset hn hs] at h
    cases h
  · rw [checkPairing_of_mispaired he] at h
    cases h
    exact he

/-- Labels and targets pair up in any order. -/
theorem checkPairing_eq_ok_of_perm {attached' targets' : List Label} (ha : attached.Perm attached')
    (ht : targets.Perm targets') :
    checkPairing attached targets = .ok () ↔ checkPairing attached' targets' = .ok () := by
  rw [checkPairing_eq_ok_iff, checkPairing_eq_ok_iff, ha.nodup_iff, ha.subset_congr_right,
    ht.subset_congr_left]

/-- **The check of labels is exact.**  It accepts distinct labels and targets that are among them.
If a label is attached twice, the one whose second occurrence comes first is reported, whatever the
targets are; and otherwise, if a target is not attached, the first such target.  In which order
labels and targets come does not matter to whether they are accepted. -/
theorem checkPairing_exact (attached targets : List Label) :
    (checkPairing attached targets = .ok () ↔ attached.Nodup ∧ targets ⊆ attached) ∧
      (¬attached.Nodup → ∃ l, FirstRepeat attached l ∧
        ∀ targets', checkPairing attached targets' = .error (.duplicateLabel l)) ∧
      (attached.Nodup → ¬targets ⊆ attached → ∃ l, FirstMissing attached targets l ∧
        checkPairing attached targets = .error (.danglingLabel l)) ∧
      ∀ attached' targets', attached.Perm attached' → targets.Perm targets' →
        (checkPairing attached targets = .ok () ↔ checkPairing attached' targets' = .ok ()) := by
  refine ⟨checkPairing_eq_ok_iff, fun hn => ?_, fun hn hs => ?_, fun attached' targets' => ?_⟩
  · obtain ⟨l, hl⟩ := exists_firstRepeat hn
    exact ⟨l, hl, fun targets' => checkPairing_of_mispaired (.duplicate hl)⟩
  · obtain ⟨l, hl⟩ := exists_firstMissing hs
    exact ⟨l, hl, checkPairing_of_mispaired (.dangling hn hl)⟩
  · exact checkPairing_eq_ok_of_perm

/-- The theorem at work on two labels that are both attached twice, the inner one first, and on
two targets that are not attached, after one that is. -/
theorem checkPairing_exact_faults :
    let twice : List Label := [⟨1⟩, ⟨2⟩, ⟨2⟩, ⟨1⟩]
    let once : List Label := [⟨1⟩, ⟨2⟩]
    let targets : List Label := [⟨2⟩, ⟨4⟩, ⟨3⟩]
    ¬twice.Nodup ∧ once.Nodup ∧ ¬targets ⊆ once ∧
      (∀ targets', checkPairing twice targets' = .error (.duplicateLabel ⟨2⟩)) ∧
      checkPairing once targets = .error (.danglingLabel ⟨4⟩) ∧
      checkPairing once.reverse targets.reverse ≠ .ok () := by
  intro twice once targets
  have htwice : ¬twice.Nodup := by decide
  have honce : once.Nodup := by decide
  have htargets : ¬targets ⊆ once := by decide
  obtain ⟨l, -, hduplicate⟩ := (checkPairing_exact twice targets).2.1 htwice
  obtain ⟨m, -, hdangling⟩ := (checkPairing_exact once targets).2.2.1 honce htargets
  have horder := (checkPairing_exact once targets).2.2.2 once.reverse targets.reverse
    once.reverse_perm.symm targets.reverse_perm.symm
  have hl : l = ⟨2⟩ := by
    have h : checkPairing twice [] = .error (.duplicateLabel ⟨2⟩) := by decide
    rw [hduplicate] at h
    cases h
    rfl
  have hm : m = ⟨4⟩ := by
    have h : checkPairing once targets = .error (.danglingLabel ⟨4⟩) := by decide
    rw [hdangling] at h
    cases h
    rfl
  refine ⟨htwice, honce, htargets, hl ▸ hduplicate, hm ▸ hdangling, fun h => ?_⟩
  rw [← horder, hdangling] at h
  cases h

end ProcTree
