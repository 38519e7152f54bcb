/-
# Temporaries, one after another

A table that gains temporaries keeps all that it had, and what comes after is new: the names are
those of increasing numbers, and none of them was taken before (`Table.Gains`).

The names do not depend on what the temporaries hold.  So a table fixes in advance what its next
temporaries will be called (`Table.tempAt`), and to say which temporaries it gains is to list their
values (`Table.withTemps`, `Table.gains_withTemps`).
-/
import Mathlib.Data.List.Induction
import ProcTree.Proofs.Table

namespace ProcTree
namespace Table

variable {t t' : Table} {new : List Variable}

/-! ## 1. Gains -/

/-- The second table is the first one with these variables at the end.  They are temporaries: the
numbers in their names increase, the supply of the first table had not come to them and that of the
second one has passed them.  Each holds a value of its kind, and its name is a new one. -/
structure Gains (new : List Variable) (t t' : Table) : Prop where
  tempStem : t'.tempStem = t.tempStem
  nextTemp : t.nextTemp ≤ t'.nextTemp
  entries : t'.entries = t.entries ++ new
  wellKinded : ∀ v ∈ new, v.WellKinded
  fresh : ∀ v ∈ new, v.name ∉ t.names
  numbers : ∃ is : List Nat, is.Pairwise (· < ·) ∧
    (∀ i ∈ is, t.nextTemp ≤ i ∧ i < t'.nextTemp) ∧ new.map Variable.name = is.map t.tempName

theorem nextTemp_le_freeTemp (t : Table) : t.nextTemp ≤ t.freeTemp :=
  (t.freeFrom_spec (t.entries.length + 1) t.nextTemp).1

namespace Gains

theorem refl (t : Table) : Gains [] t t :=
  ⟨rfl, Nat.le_refl _, by simp, by simp, by simp, [], by simp⟩

theorem grows (h : Gains new t t') : t.entries <+: t'.entries := ⟨new, h.entries.symm⟩

theorem names_subset (h : Gains new t t') : t.names ⊆ t'.names :=
  names_subset_of_prefix h.grows

theorem names (h : Gains new t t') : t'.names = t.names ++ new.map Variable.name := by
  rw [Table.names, h.entries, List.map_append, Table.names]

/-- The names of the temporaries are distinct, because their numbers are. -/
theorem nodup (h : Gains new t t') : (new.map Variable.name).Nodup := by
  obtain ⟨is, hlt, -, hnames⟩ := h.numbers
  rw [hnames]
  refine List.pairwise_map.mpr (hlt.imp fun hij hname => ?_)
  exact absurd (t.tempName_injective hname) (Nat.ne_of_lt hij)

/-- One temporary more. -/
theorem withTemp (h : Gains new t t') (value : Value) :
    Gains (new ++ [⟨t'.freshName, value.kind, value⟩]) t (t'.withTemp value) := by
  have hfree := t'.nextTemp_le_freeTemp
  have hnext : (t'.withTemp value).nextTemp = t'.freeTemp + 1 := rfl
  obtain ⟨is, hlt, hbounds, hnames⟩ := h.numbers
  refine ⟨h.tempStem, ?_, ?_, ?_, ?_, is ++ [t'.freeTemp], ?_, ?_, ?_⟩
  · have := h.nextTemp
    omega
  · rw [entries_withTemp, h.entries, List.append_assoc]
  · intro v hv
    rcases List.mem_append.mp hv with hv | hv
    · exact h.wellKinded v hv
    · rw [List.mem_singleton.mp hv]
      rfl
  · intro v hv
    rcases List.mem_append.mp hv with hv | hv
    · exact h.fresh v hv
    · rw [List.mem_singleton.mp hv]
      exact fun hm => t'.freshName_not_mem (h.names_subset hm)
  · refine List.pairwise_append.mpr ⟨hlt, List.pairwise_singleton _ _, ?_⟩
    intro i hi j hj
    obtain rfl := List.mem_singleton.mp hj
    exact Nat.lt_of_lt_of_le (hbounds i hi).2 hfree
  · intro i hi
    rw [hnext]
    have := h.nextTemp
    rcases List.mem_append.mp hi with hi | hi
    · have := hbounds i hi
      omega
    · obtain rfl := List.mem_singleton.mp hi
      omega
  · have hlast : t'.freshName = t.tempName t'.freeTemp := by
      rw [freshName, tempName, tempName, h.tempStem]
    rw [List.map_append, List.map_append, hnames, List.map_singleton, List.map_singleton, hlast]

end Gains

/-! ## 2. The names to come -/

/-- The tables have the same names and the same supply of temporary names. -/
structure SameNames (t t' : Table) : Prop where
  names : t'.names = t.names
  tempStem : t'.tempStem = t.tempStem
  nextTemp : t'.nextTemp = t.nextTemp

namespace SameNames

theorem freeTemp (h : t.SameNames t') : t'.freeTemp = t.freeTemp := by
  refine freeTemp_of_contains h.tempStem (fun name => ?_) ?_ h.nextTemp
  · rw [Bool.eq_iff_iff, contains_iff, contains_iff, h.names]
  · simpa [Table.names, toList_eq] using congrArg List.length h.names

theorem freshName (h : t.SameNames t') : t'.freshName = t.freshName :=
  freshName_of_freeTemp h.tempStem h.freeTemp

/-- Whatever the next temporary holds. -/
theorem withTemp (h : t.SameNames t') (v w : Value) :
    (t.withTemp v).SameNames (t'.withTemp w) := by
  refine ⟨?_, h.tempStem, congrArg (· + 1) h.freeTemp⟩
  rw [names_withTemp, names_withTemp, h.names, h.freshName]

end SameNames

/-- The name of the temporary that will be obtained after so many others. -/
def tempAt (t : Table) : Nat → String
  | 0 => t.freshName
  | k + 1 => (t.withTemp (.boolean false)).tempAt k

theorem SameNames.tempAt (h : t.SameNames t') (k : Nat) : t'.tempAt k = t.tempAt k := by
  induction k generalizing t t' with
  | zero => exact h.freshName
  | succ k ih => exact ih (h.withTemp _ _)

theorem tempAt_withTemp (t : Table) (v : Value) (k : Nat) :
    (t.withTemp v).tempAt k = t.tempAt (k + 1) :=
  SameNames.tempAt (SameNames.withTemp ⟨rfl, rfl, rfl⟩ _ _) k

/-! ## 3. Temporaries that hold given values -/

/-- The table with temporaries that hold these values, obtained in this order. -/
def withTemps (t : Table) (vs : List Value) : Table := vs.foldl withTemp t

/-- The temporaries that the table gains with these values. -/
def temps (t : Table) (vs : List Value) : List Variable :=
  vs.mapIdx fun k v => ⟨t.tempAt k, v.kind, v⟩

@[simp] theorem withTemps_concat (t : Table) (vs : List Value) (v : Value) :
    t.withTemps (vs ++ [v]) = (t.withTemps vs).withTemp v := by
  rw [withTemps, List.foldl_append]
  rfl

/-- **The name of the next temporary** depends on how many there were before it only. -/
theorem freshName_withTemps (t : Table) (vs : List Value) :
    (t.withTemps vs).freshName = t.tempAt vs.length := by
  induction vs generalizing t with
  | nil => rfl
  | cons v vs ih => exact (ih (t.withTemp v)).trans (t.tempAt_withTemp v vs.length)

/-- **The temporaries are gained**, in order and under the names foreseen. -/
theorem gains_withTemps (t : Table) (vs : List Value) :
    t.Gains (t.temps vs) (t.withTemps vs) := by
  induction vs using List.reverseRecOn with
  | nil => exact .refl t
  | append_singleton vs v ih =>
    have h := ih.withTemp v
    rwa [freshName_withTemps, ← withTemps_concat,
      show t.temps vs ++ [⟨t.tempAt vs.length, v.kind, v⟩] = t.temps (vs ++ [v]) by
        simp [temps, List.mapIdx_concat]] at h

theorem names_temps (t : Table) (vs : List Value) :
    (t.temps vs).map Variable.name = (List.range vs.length).map t.tempAt := by
  refine List.ext_getElem (by simp [temps]) fun k hk hk' => ?_
  simp [temps]

theorem tempAt_mem_names (t : Table) {vs : List Value} {k : Nat} (hk : k < vs.length) :
    t.tempAt k ∈ (t.withTemps vs).names := by
  rw [(t.gains_withTemps vs).names, names_temps]
  exact List.mem_append_right _ (List.mem_map_of_mem (List.mem_range.mpr hk))

/-- A name to come is not taken. -/
theorem tempAt_not_mem (t : Table) (k : Nat) : t.tempAt k ∉ t.names := by
  intro hm
  have hfresh := (t.withTemps (List.replicate k (.boolean false))).freshName_not_mem
  rw [freshName_withTemps, List.length_replicate] at hfresh
  exact hfresh ((t.gains_withTemps _).names_subset hm)

/-- The names to come are distinct. -/
theorem tempAt_injective (t : Table) : Function.Injective t.tempAt := by
  have hlt : ∀ {j k : Nat}, j < k → t.tempAt j ≠ t.tempAt k := by
    intro j k hjk e
    have hfresh := (t.withTemps (List.replicate k (.boolean false))).freshName_not_mem
    rw [freshName_withTemps, List.length_replicate, ← e] at hfresh
    exact hfresh (t.tempAt_mem_names (by simpa using hjk))
  intro j k e
  rcases Nat.lt_trichotomy j k with h | h | h
  · exact absurd e (hlt h)
  · exact h
  · exact absurd e.symm (hlt h)

end Table
end ProcTree
