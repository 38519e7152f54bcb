/-
# Names of temporaries are new

A request for a temporary searches for a free name: it looks at one number after the other, from
the counter on, until the name with that number is not registered.  Nothing bounds the search, and
the names that users declare may stand in its way.

* `Table.search_iff`: the search ends all the same (`Table.Search` is the search, round by round),
  because the names that it looks at are pairwise distinct and only registered names keep it going.
  So it takes at most one round more than there are variables, and ends at the least free number.
* `Table.Counts`: along all uses of a table the counter only goes up.
* `Table.temporaries_never_reused`: so the numbers picked along a run increase, and no temporary
  has a name that was registered at any time before.
-/
import ProcTree.Proofs.Lowering.Intact
import ProcTree.Proofs.Use

namespace ProcTree
namespace Table

variable {t t' : Table}

/-! ## 1. The search for a free name -/

/-- The search for a free name, from one number to another in so many rounds.  A round looks at the
name with the number; if the name is taken, the next round looks at the next number. -/
inductive Search (t : Table) : Nat → Nat → Nat → Prop
  | free {i : Nat} (h : t.tempName i ∉ t.names) : Search t i 1 i
  | taken {i rounds j : Nat} (h : t.tempName i ∈ t.names) (hnext : Search t (i + 1) rounds j) :
    Search t i (rounds + 1) j

/-- The least number, not below the counter, whose name is not registered. -/
structure LeastFree (t : Table) (i : Nat) : Prop where
  le : t.nextTemp ≤ i
  free : t.tempName i ∉ t.names
  least : ∀ j, t.nextTemp ≤ j → t.tempName j ∉ t.names → i ≤ j

/-- A search that passes taken names only and then meets a free one. -/
theorem Search.of_taken {i n : Nat} (htaken : ∀ k, k < n → t.tempName (i + k) ∈ t.names)
    (hfree : t.tempName (i + n) ∉ t.names) : t.Search i (n + 1) (i + n) := by
  induction n generalizing i with
  | zero => exact .free hfree
  | succ n ih =>
    have hshift : ∀ k, i + 1 + k = i + (k + 1) := by omega
    refine .taken (htaken 0 (by omega)) ?_
    rw [← hshift n] at hfree ⊢
    exact ih (fun k hk => hshift k ▸ htaken (k + 1) (by omega)) hfree

/-- No two searches from one number differ. -/
theorem Search.unique {i r j r' j' : Nat} (h : t.Search i r j) (h' : t.Search i r' j') :
    r = r' ∧ j = j' := by
  induction h generalizing r' with
  | free hfree =>
    cases h' with
    | free => exact ⟨rfl, rfl⟩
    | taken htaken _ => exact absurd htaken hfree
  | taken htaken _ ih =>
    cases h' with
    | free hfree => exact absurd htaken hfree
    | taken _ hnext =>
      obtain ⟨rfl, rfl⟩ := ih hnext
      exact ⟨rfl, rfl⟩

theorem leastFree_freeTemp (t : Table) : t.LeastFree t.freeTemp := by
  obtain ⟨hle, hpass, -⟩ := t.freeFrom_spec (t.entries.length + 1) t.nextTemp
  refine ⟨hle, t.freshName_not_mem, fun j hj hfree => ?_⟩
  by_contra hlt
  exact hfree (hpass j hj (Nat.lt_of_not_le hlt))

/-- The search passes no more names than there are variables. -/
theorem freeTemp_le (t : Table) : t.freeTemp ≤ t.nextTemp + t.entries.length := by
  obtain ⟨hle, hpass, -⟩ := t.freeFrom_spec (t.entries.length + 1) t.nextTemp
  have hcount : t.freeTemp - t.nextTemp ≤ t.entries.length := by
    refine t.taken_length_le fun j hj hlt => hpass j hj ?_
    have : t.freeTemp = t.freeFrom (t.entries.length + 1) t.nextTemp := rfl
    omega
  omega

/-- **The search ends**, at one number and after so many rounds. -/
theorem search_iff (t : Table) {rounds i : Nat} : t.Search t.nextTemp rounds i ↔
    rounds = t.freeTemp - t.nextTemp + 1 ∧ i = t.freeTemp := by
  have hfree := t.leastFree_freeTemp
  obtain ⟨n, hn⟩ := Nat.exists_eq_add_of_le hfree.le
  have hsearch : t.Search t.nextTemp (n + 1) t.freeTemp := by
    rw [hn]
    refine .of_taken (fun k hk => ?_) (hn ▸ hfree.free)
    by_contra hk'
    have := hfree.least (t.nextTemp + k) (by omega) hk'
    omega
  have hrounds : t.freeTemp - t.nextTemp + 1 = n + 1 := by omega
  rw [hrounds]
  constructor
  · exact fun h => h.unique hsearch
  · rintro ⟨rfl, rfl⟩
    exact hsearch

/-! ## 2. The counter along uses -/

/-- The stem of temporary names is the same, and the counter has not gone back. -/
structure Counts (t t' : Table) : Prop where
  tempStem : t'.tempStem = t.tempStem
  nextTemp : t.nextTemp ≤ t'.nextTemp

namespace Counts

theorem refl (t : Table) : Counts t t := ⟨rfl, Nat.le_refl _⟩

theorem trans {t₁ t₂ t₃ : Table} (h : Counts t₁ t₂) (h' : Counts t₂ t₃) : Counts t₁ t₃ :=
  ⟨h'.tempStem.trans h.tempStem, Nat.le_trans h.nextTemp h'.nextTemp⟩

theorem of_sameShape (h : t.SameShape t') : t.Counts t' :=
  ⟨h.tempStem, Nat.le_of_eq h.nextTemp.symm⟩

theorem of_gains {new : List Variable} (h : t.Gains new t') : t.Counts t' :=
  ⟨h.tempStem, h.nextTemp⟩

end Counts

end Table

namespace Use
open Table

variable {t : Table}

/-- A use that leaves the table as it is when it fails, and another when it succeeds. -/
theorem counts_ending {f : EStateM Stop Table (Option Handle)} {α : Type} {x : Except Error α}
    {result : α → Option Handle × Table} (hf : f t = ending t (x.map result))
    (hx : ∀ a, x = .ok a → t.Counts (result a).2) : t.Counts (leaves f t) := by
  cases x with
  | error e =>
    rw [leaves_of_error hf]
    exact .refl t
  | ok a =>
    rw [leaves_of_ok hf]
    exact hx a rfl

/-- A computation on a larger state leaves the table in it. -/
theorem leaves_through {ε σ α : Type} (begins : Table → σ) (table : σ → Table)
    (hands : α → Option Handle) (stop : ε → Stop) (x : EStateM ε σ α) (t : Table) :
    leaves (through begins table hands stop x) t = table (leaves x (begins t)) := by
  unfold leaves through
  cases x (begins t) <;> rfl

/-- A request for a temporary with a value, or for one without a type. -/
theorem counts_next {entries : List Variable} :
    t.Counts ⟨entries, t.tempStem, t.freeTemp + 1⟩ :=
  ⟨rfl, Nat.le_succ_of_le t.leastFree_freeTemp.le⟩

theorem counts_declare (name : String) (ty : Ty) : t.Counts (leaves (declare name ty).run t) := by
  refine counts_ending rfl fun ⟨h, t'⟩ hd => ?_
  obtain ⟨-, k, -, -, rfl⟩ := declare_eq_ok_iff.mp hd
  exact ⟨rfl, Nat.le_refl _⟩

theorem counts_set (name : String) (value : Value) :
    t.Counts (leaves (set name value).run t) := by
  refine counts_ending rfl fun t' hs => ?_
  obtain ⟨v, -, -, rfl⟩ := set_eq_ok_iff.mp hs
  exact .of_sameShape (sameShape_store t name value)

theorem counts_lookup (name : String) : t.Counts (leaves (lookup name).run t) :=
  counts_ending rfl fun _ _ => .refl t

/-- **No use turns the counter back.** -/
theorem counts (u : Use) (t : Table) : t.Counts (leaves u.run t) := by
  cases u with
  | declare name ty => exact counts_declare name ty
  | obtainTemp ty =>
    cases ty with
    | some k =>
      rw [leaves_of_ok (obtainTemp_run k t)]
      exact counts_next
    | none => exact counts_next
  | obtainTempOf value => exact counts_next
  | lookup name => exact counts_lookup name
  | assign h value => exact counts_set h.name value
  | set name value => exact counts_set name value
  | compute tree rounds output =>
    rw [run, leaves_through]
    exact .of_sameShape (tree.compute_follows rounds ⟨t, output⟩).shape
  | interpret tree rounds output =>
    rw [run, leaves_through]
    exact .of_sameShape (tree.interpret_follows rounds ⟨t, output⟩).shape
  | lower tree layout nextLabel code =>
    obtain ⟨_, hgains, -⟩ := tree.lower_gains layout ⟨t, nextLabel, code⟩
    rw [run, leaves_through]
    exact .of_gains hgains
  | compile tree options =>
    obtain ⟨_, hgains, -⟩ := tree.compile_gains options t
    rw [run, leaves_through]
    exact .of_gains hgains

/-- The number that a request for a temporary picks, also if it is refused for want of a type. -/
def pick? : Use → Table → Option Nat
  | obtainTemp _, t | obtainTempOf _, t => some t.freeTemp
  | _, _ => none

/-- What a request for a temporary does: it picks the least free number and moves the counter behind
it, and a temporary that it hands out has the name with this number. -/
theorem of_pick? {u : Use} {i : Nat} (h : u.pick? t = some i) :
    i = t.freeTemp ∧ (leaves u.run t).nextTemp = t.freeTemp + 1 ∧
      ∀ g t', u.run t = .ok (some g) t' → g.name = t.freshName := by
  cases u with
  | obtainTemp ty =>
    refine ⟨(Option.some.inj h).symm, ?_⟩
    cases ty with
    | none =>
      refine ⟨rfl, ?_⟩
      rintro g t' ⟨⟩
    | some k =>
      rw [leaves_of_ok (obtainTemp_run k t), obtainTemp_run]
      refine ⟨rfl, ?_⟩
      rintro g t' ⟨⟩
      rfl
  | obtainTempOf value =>
    refine ⟨(Option.some.inj h).symm, rfl, ?_⟩
    rintro g t' ⟨⟩
    rfl
  | _ => cases h

end Use

namespace Table

variable {t : Table}

/-! ## 3. Runs -/

/-- The numbers picked for temporaries along these uses of the table, in order. -/
def picks (t : Table) : List Use → List Nat
  | [] => []
  | u :: us => (u.pick? t).toList ++ (leaves u.run t).picks us

theorem counts_after (t : Table) (us : List Use) : t.Counts (t.after us) := by
  induction us generalizing t with
  | nil => exact .refl t
  | cons u us ih => exact (u.counts t).trans (ih (leaves u.run t))

/-- What is registered stays so. -/
theorem names_subset_after (t : Table) (us : List Use) : t.names ⊆ (t.after us).names := by
  have hnames : ∀ s : Table, s.names = s.handles.map Handle.name := by
    intro s
    simp [names, handles, Variable.handle, Function.comp_def]
  rw [hnames, hnames]
  exact List.map_subset _ (t.evolves_after us).handles.subset

/-- The counter has not come to any number that will be picked. -/
theorem le_of_mem_picks {us : List Use} {i : Nat} (h : i ∈ t.picks us) : t.nextTemp ≤ i := by
  induction us generalizing t with
  | nil => cases h
  | cons u us ih =>
    rcases List.mem_append.mp h with h | h
    · rw [(Use.of_pick? (Option.mem_toList.mp h)).1]
      exact t.leastFree_freeTemp.le
    · exact Nat.le_trans (u.counts t).nextTemp (ih h)

/-- **The numbers picked along a run increase.** -/
theorem picks_increase (t : Table) (us : List Use) : (t.picks us).Pairwise (· < ·) := by
  induction us generalizing t with
  | nil => exact .nil
  | cons u us ih =>
    rw [picks, List.pairwise_append]
    refine ⟨?_, ih _, ?_⟩
    · cases u.pick? t <;> simp
    · intro i hi j hj
      obtain ⟨rfl, hnext, -⟩ := Use.of_pick? (Option.mem_toList.mp hi)
      have hle := le_of_mem_picks hj
      omega

/-- **Temporaries have new names.**  Take a table that began empty, with any stem and after any uses
of it.  The search for a free name ends, after at most one round more than there are variables, at
the least free number that the counter has not passed.  Both requests for a temporary register it
under the stem and this number and leave the counter just behind it; a request without a type only
moves the counter.  So the numbers picked along a run increase, and whatever uses come after, no
temporary is handed out under a name that has been registered. -/
theorem temporaries_never_reused (stem : String) (us : List Use) :
    let t := (Table.empty stem).after us
    (∃ rounds i, rounds ≤ t.entries.length + 1 ∧
      (∀ r j, t.Search t.nextTemp r j ↔ r = rounds ∧ j = i) ∧ t.LeastFree i ∧
      (∀ k, t.obtainTemp (some k) = (.ok ⟨stem ++ Decimal.natText i, k⟩,
        ⟨t.entries ++ [⟨stem ++ Decimal.natText i, k, .zero k⟩], stem, i + 1⟩)) ∧
      (∀ v, t.obtainTempOf v = (⟨stem ++ Decimal.natText i, v.kind⟩,
        ⟨t.entries ++ [⟨stem ++ Decimal.natText i, v.kind, v⟩], stem, i + 1⟩)) ∧
      t.obtainTemp none = (.error (.untypedVariable (stem ++ Decimal.natText i)),
        ⟨t.entries, stem, i + 1⟩)) ∧
    ((Table.empty stem).picks us).Pairwise (· < ·) ∧
    ∀ more (u : Use) i g t', u.pick? (t.after more) = some i →
      u.run (t.after more) = .ok (some g) t' →
      g.name = stem ++ Decimal.natText i ∧ g.name ∉ t.names := by
  intro t
  have hstem : t.tempStem = stem := ((Table.empty stem).counts_after us).tempStem
  have hname : t.freshName = stem ++ Decimal.natText t.freeTemp := by
    rw [freshName, tempName, hstem]
  refine ⟨⟨t.freeTemp - t.nextTemp + 1, t.freeTemp, ?_, fun r j => t.search_iff,
    t.leastFree_freeTemp, ?_, ?_, ?_⟩, picks_increase _ us, ?_⟩
  · have := t.freeTemp_le
    omega
  · intro k
    rw [obtainTemp_some, withTemp, register_eq, Value.kind_zero, hname, hstem]
  · intro v
    rw [obtainTempOf_eq, withTemp, register_eq, hname, hstem]
  · rw [obtainTemp_none, hname, hstem]
  · intro more u i g t' hpick hrun
    obtain ⟨rfl, -, hg⟩ := Use.of_pick? hpick
    have hname := hg g t' hrun
    refine ⟨?_, fun hmem => ?_⟩
    · rw [hname, freshName, tempName, (t.counts_after more).tempStem, hstem]
    · exact (t.after more).freshName_not_mem (hname ▸ t.names_subset_after more hmem)

/-- The theorem at work with an empty stem, so that the names are numbers, on a user who declares
three of them.  A request without a type uses up the number after a declared one, and the next one
passes another declared one. -/
theorem temporaries_never_reused_digits :
    let us : List Use := [.declare "0" (some .integer), .declare "2" (some .real),
      .obtainTemp (some .boolean), .obtainTemp none, .declare "3" (some .string),
      .declare "4" (some .string), .obtainTempOf (.integer 7)]
    let t := (Table.empty "").after us
    let later := t.after [.declare "6" none, .obtainTemp none]
    (Table.empty "").picks us = [1, 3, 5] ∧ [1, 3, 5].Pairwise (· < ·) ∧
      t.names = ["0", "2", "1", "3", "4", "5"] ∧
      ∃ g t', (Use.obtainTemp (some .real)).pick? later = some 7 ∧
        (Use.obtainTemp (some .real)).run later = .ok (some g) t' ∧
        g.name = "" ++ Decimal.natText 7 ∧ g.name ∉ t.names := by
  intro us t later
  obtain ⟨-, hpicks, hnew⟩ := temporaries_never_reused "" us
  have hus : (Table.empty "").picks us = [1, 3, 5] := by decide +kernel
  have hpick : (Use.obtainTemp (some .real)).pick? later = some 7 := by decide +kernel
  have hrun := Use.obtainTemp_run .real later
  exact ⟨hus, hus ▸ hpicks, by decide +kernel, _, _, hpick, hrun, hnew _ _ 7 _ _ hpick hrun⟩

end Table
end ProcTree
