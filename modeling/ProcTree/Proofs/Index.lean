/-
# The index of a table

The index of a table is the map that an indexed table with the same variables has to keep: each
variable's name is entered with its place, in the order of registration.  So registering a variable
enters one more name (`Table.index_register`), and stores leave the index alone
(`Table.index_store`).

While names are distinct the index says where each name is and nothing else
(`Table.index_eq_some_iff`), so whatever a table does by searching it does by the index: see if a
name is registered (`Table.contains_eq_index`), find its variable (`Table.find?_eq_index`), and
store into it (`Table.store_eq_index`).
-/
import ProcTree.Proofs.Table

namespace ProcTree

/-! ## 1. Maps from names to places -/

namespace Index

/-- The map after these names have got the places from the given one on, in order. -/
def insertAll (index : Index) (place : Nat) : List String → Index
  | [] => index
  | name :: names => (index.insert name place).insertAll (place + 1) names

variable {index : Index} {place : Nat} {name : String}

theorem insertAll_append (names more : List String) :
    index.insertAll place (names ++ more) =
      (index.insertAll place names).insertAll (place + names.length) more := by
  induction names generalizing index place with
  | nil => rfl
  | cons n names ih =>
    rw [List.cons_append, insertAll, ih, insertAll, List.length_cons]
    congr 1
    omega

theorem insertAll_of_not_mem {names : List String} (h : name ∉ names) :
    index.insertAll place names name = index name := by
  induction names generalizing index place with
  | nil => rfl
  | cons n names ih =>
    rw [List.mem_cons, not_or] at h
    rw [insertAll, ih h.2, insert, if_neg h.1]

/-- Among distinct names, each keeps the place that it got. -/
theorem insertAll_of_getElem? {names : List String} (hn : names.Nodup) {i : Nat}
    (h : names[i]? = some name) : index.insertAll place names name = some (place + i) := by
  induction names generalizing index place i with
  | nil => exact absurd h (by simp)
  | cons n names ih =>
    rw [List.nodup_cons] at hn
    cases i with
    | zero =>
      obtain rfl : n = name := by simpa using h
      rw [insertAll, insertAll_of_not_mem hn.1, insert, if_pos rfl]
      rfl
    | succ i =>
      rw [insertAll, ih hn.2 (by simpa using h)]
      congr 1
      omega

end Index

/-! ## 2. The index of a table -/

namespace Table

/-- The index that the registrations of a table's variables build up. -/
def index (t : Table) : Index := Index.empty.insertAll 0 t.names

/-- Registering a variable records its name with the place that it takes. -/
theorem index_register (t : Table) (v : Variable) :
    (t.register v).index = t.index.insert v.name t.entries.length := by
  rw [index, names_register, Index.insertAll_append, index, Index.insertAll, Index.insertAll]
  simp [names]

/-- What only changes values keeps the index. -/
theorem SameShape.index {t t' : Table} (h : SameShape t t') : t'.index = t.index := by
  rw [Table.index, h.names, Table.index]

theorem index_store (t : Table) (name : String) (value : Value) :
    (t.store name value).index = t.index := (sameShape_store t name value).index

theorem names_getElem?_eq_some_iff {t : Table} {name : String} {i : Nat} :
    t.names[i]? = some name ↔ ∃ v, t.entries[i]? = some v ∧ v.name = name := by
  rw [names, List.getElem?_map, Option.map_eq_some_iff]

/-- **The index maps each name to the place of the variable of that name**, and no other name. -/
theorem index_eq_some_iff {t : Table} (hn : t.names.Nodup) {name : String} {i : Nat} :
    t.index name = some i ↔ ∃ v, t.entries[i]? = some v ∧ v.name = name := by
  rw [← names_getElem?_eq_some_iff]
  constructor
  · intro h
    by_cases hm : name ∈ t.names
    · obtain ⟨j, hj⟩ := List.mem_iff_getElem?.mp hm
      have hplace : t.index name = some (0 + j) := Index.insertAll_of_getElem? hn hj
      obtain rfl : 0 + j = i := Option.some.inj (hplace.symm.trans h)
      rwa [Nat.zero_add]
    · rw [index, Index.insertAll_of_not_mem hm] at h
      cases h
  · intro h
    rw [index, Index.insertAll_of_getElem? hn h, Nat.zero_add]

theorem index_eq_none_iff {t : Table} (hn : t.names.Nodup) {name : String} :
    t.index name = none ↔ name ∉ t.names := by
  constructor
  · intro h hm
    obtain ⟨j, hj⟩ := List.mem_iff_getElem?.mp hm
    rw [(index_eq_some_iff hn).mpr (names_getElem?_eq_some_iff.mp hj)] at h
    cases h
  · exact Index.insertAll_of_not_mem

/-! ## 3. What goes by the index -/

/-- A name is registered when the index has it. -/
theorem contains_eq_index {t : Table} (hn : t.names.Nodup) (name : String) :
    t.contains name = (t.index name).isSome := by
  rw [Bool.eq_iff_iff, contains_iff]
  cases hi : t.index name with
  | none => simp [(index_eq_none_iff hn).mp hi]
  | some i =>
    obtain ⟨v, hv, hname⟩ := (index_eq_some_iff hn).mp hi
    have hm : name ∈ t.names := List.mem_map.mpr ⟨v, List.mem_of_getElem? hv, hname⟩
    simp [hm]

/-- The variable of a name is the one at the name's place. -/
theorem find?_eq_index {t : Table} (hn : t.names.Nodup) (name : String) :
    t.find? name = (t.index name).bind fun i => t.entries[i]? := by
  cases hi : t.index name with
  | none => exact find?_eq_none ((index_eq_none_iff hn).mp hi)
  | some i =>
    obtain ⟨v, hv, rfl⟩ := (index_eq_some_iff hn).mp hi
    rw [find?_of_mem hn (List.mem_of_getElem? hv)]
    exact hv.symm

/-- A store changes the variable at the name's place. -/
theorem store_eq_index {t : Table} (hn : t.names.Nodup) {name : String} {i : Nat}
    (hi : t.index name = some i) (value : Value) :
    t.store name value = { t with entries := t.entries.modify i fun v => { v with value } } := by
  have hentries : (t.entries.map fun v => if v.name = name then { v with value } else v) =
      t.entries.modify i fun v => { v with value } := by
    refine List.ext_getElem? fun j => ?_
    rw [List.getElem?_map, List.getElem?_modify]
    cases hj : t.entries[j]? with
    | none => rfl
    | some v =>
      have hplace : v.name = name ↔ i = j := by
        constructor
        · intro hname
          have hj := (index_eq_some_iff hn).mpr ⟨v, hj, hname⟩
          exact Option.some.inj (hi.symm.trans hj)
        · rintro rfl
          obtain ⟨w, hw, hname⟩ := (index_eq_some_iff hn).mp hi
          obtain rfl : w = v := Option.some.inj (hw.symm.trans hj)
          exact hname
      simp only [Option.map_some, hplace]
      split <;> rfl
  rw [store_eq, hentries]

end Table
end ProcTree
