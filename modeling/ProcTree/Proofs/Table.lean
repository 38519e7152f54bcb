/-
# Symbol tables: what is found, stored and registered

A table is read by name, written by name, and extended at its end.  This file says what each
operation does to the variables that are found under a name, and that a table made by its
operations stays well formed.

It is about tables that keep their variables in a list, and section 1 says what the operations are
for them.  Section 8 sets tables with different registries side by side: tables that find the same,
and know the same names, do the same.

* `Table.find?_of_mem`: names being distinct, every variable is found under its own name.
* `Table.SameShape`: storing changes values only.  Names, kinds and the supply of temporaries
  stay, and so does everything that is read off them (`SameShape.lookup`).
* `Table.freshName_not_mem`: the search for the name of a temporary ends at a free one.  It tries
  one name more than there are variables, and the names it tries are pairwise distinct, so not
  all of them are taken.
* `Table.declare_eq_ok_iff`, `Table.withTemp`: a declaration registers one variable under a free
  name, and so do both ways to obtain a temporary.
-/
import ProcTree.Table

namespace ProcTree

/-! ## 1. Tables that keep a list -/

namespace Table

theorem toList_eq (t : Table) : t.toList = t.entries := rfl

theorem find?_eq (t : Table) (name : String) :
    t.find? name = t.entries.find? fun v => v.name = name := rfl

theorem contains_eq (t : Table) (name : String) :
    t.contains name = t.entries.any fun v => v.name = name := rfl

theorem store_eq (t : Table) (name : String) (value : Value) : t.store name value =
    { t with entries := t.entries.map fun v => if v.name = name then { v with value } else v } :=
  rfl

theorem register_eq (t : Table) (v : Variable) :
    t.register v = { t with entries := t.entries ++ [v] } := rfl

theorem names_register (t : Table) (v : Variable) : (t.register v).names = t.names ++ [v.name] := by
  simp [names, register_eq]

end Table

/-! ## 2. Finding a variable -/

/-- Among variables with distinct names, each is the first of its name. -/
theorem Variable.find?_of_mem {vs : List Variable} (hn : (vs.map Variable.name).Nodup)
    {v : Variable} (hv : v ∈ vs) : vs.find? (fun w => w.name = v.name) = some v := by
  induction vs with
  | nil => exact absurd hv (by simp)
  | cons w ws ih =>
    rw [List.map_cons, List.nodup_cons] at hn
    rcases List.mem_cons.mp hv with rfl | hv
    · simp
    · have hne : w.name ≠ v.name := fun e => hn.1 (e ▸ List.mem_map_of_mem hv)
      rw [List.find?_cons_of_neg (by simpa using hne)]
      exact ih hn.2 hv

namespace Table

/-- The handles of the registered variables, in order. -/
def handles (t : Table) : List Handle := t.entries.map Variable.handle

/-- The handle is the one that the table gives for its name. -/
def Registers (t : Table) (h : Handle) : Prop := t.lookup h.name = .ok h

theorem mem_of_find? {t : Table} {name : String} {v : Variable} (h : t.find? name = some v) :
    v ∈ t.entries := List.mem_of_find?_eq_some h

theorem name_of_find? {t : Table} {name : String} {v : Variable} (h : t.find? name = some v) :
    v.name = name := by simpa using List.find?_some h

theorem find?_of_mem {t : Table} (hn : t.names.Nodup) {v : Variable} (hv : v ∈ t.entries) :
    t.find? v.name = some v := Variable.find?_of_mem hn hv

theorem contains_iff {t : Table} {name : String} : t.contains name = true ↔ name ∈ t.names := by
  simp [contains_eq, names]

/-- A name that is not registered finds nothing. -/
theorem find?_eq_none {t : Table} {name : String} (h : name ∉ t.names) : t.find? name = none := by
  rw [find?_eq, List.find?_eq_none]
  intro v hv e
  exact h (List.mem_map.mpr ⟨v, hv, by simpa using e⟩)

theorem lookup_eq_ok_iff {t : Table} {name : String} {h : Handle} :
    t.lookup name = .ok h ↔ ∃ v, t.find? name = some v ∧ v.handle = h := by
  unfold lookup get
  cases t.find? name <;> simp [Except.map]

theorem valueOf_eq_ok_iff {t : Table} {h : Handle} {value : Value} :
    t.valueOf h = .ok value ↔ ∃ v, t.find? h.name = some v ∧ v.value = value := by
  unfold valueOf get
  cases t.find? h.name <;> simp [Except.map]

/-- **A registered handle stands for one variable**, of its name and of its kind. -/
theorem registers_iff {t : Table} {h : Handle} :
    t.Registers h ↔ ∃ v, t.find? h.name = some v ∧ v.kind = h.kind := by
  rw [Registers, lookup_eq_ok_iff]
  constructor
  · rintro ⟨v, hv, rfl⟩
    exact ⟨v, hv, rfl⟩
  · rintro ⟨v, hv, hk⟩
    refine ⟨v, hv, ?_⟩
    rw [Variable.handle, name_of_find? hv, hk]

theorem Registers.mem_names {t : Table} {h : Handle} (hr : t.Registers h) : h.name ∈ t.names := by
  obtain ⟨v, hv, -⟩ := registers_iff.mp hr
  exact List.mem_map.mpr ⟨v, mem_of_find? hv, name_of_find? hv⟩

/-- A registered handle has a value, and in a well formed table the value is of its kind. -/
theorem Registers.valueOf {t : Table} {h : Handle} (hr : t.Registers h) (hw : t.WellFormed) :
    ∃ value, t.valueOf h = .ok value ∧ value.kind = h.kind := by
  obtain ⟨v, hv, hk⟩ := registers_iff.mp hr
  exact ⟨v.value, valueOf_eq_ok_iff.mpr ⟨v, hv, rfl⟩, (hw.kinds v (mem_of_find? hv)).trans hk⟩

/-! ## 3. Shapes -/

/-- Two tables that differ in values only. -/
structure SameShape (t t' : Table) : Prop where
  handles : t'.handles = t.handles
  tempStem : t'.tempStem = t.tempStem
  nextTemp : t'.nextTemp = t.nextTemp

namespace SameShape

theorem refl (t : Table) : SameShape t t := ⟨rfl, rfl, rfl⟩

theorem trans {t₁ t₂ t₃ : Table} (h : SameShape t₁ t₂) (h' : SameShape t₂ t₃) :
    SameShape t₁ t₃ :=
  ⟨h'.handles.trans h.handles, h'.tempStem.trans h.tempStem, h'.nextTemp.trans h.nextTemp⟩

theorem names {t t' : Table} (h : SameShape t t') : t'.names = t.names := by
  have hn : ∀ s : Table, s.names = s.handles.map Handle.name := by
    intro s
    simp [Table.names, Table.handles, Variable.handle, Function.comp_def]
  rw [hn, hn, h.handles]

end SameShape

/-- A lookup reads the handles only. -/
theorem lookup_eq_find?_handles (t : Table) (name : String) :
    t.lookup name = match t.handles.find? (fun h => h.name = name) with
      | some h => .ok h
      | none => .error (.notDeclared name) := by
  have hf : t.handles.find? (fun h => h.name = name) = (t.find? name).map Variable.handle := by
    simp only [handles, find?_eq, List.find?_map, Function.comp_def]
    rfl
  rw [hf, lookup, get]
  cases t.find? name <;> rfl

/-- Tables of one shape register the same handles. -/
theorem SameShape.lookup {t t' : Table} (h : SameShape t t') (name : String) :
    t'.lookup name = t.lookup name := by
  rw [lookup_eq_find?_handles, lookup_eq_find?_handles, h.handles]

theorem SameShape.registers {t t' : Table} (h : SameShape t t') {g : Handle} :
    t'.Registers g ↔ t.Registers g := by rw [Registers, Registers, h.lookup]

/-! ## 4. Storing -/

/-- What is found after a store: the stored value under that name, the old one elsewhere. -/
theorem find?_store (t : Table) (n : String) (value : Value) (name : String) :
    (t.store n value).find? name =
      (t.find? name).map fun v => if v.name = n then { v with value } else v := by
  have hp : (fun v : Variable => decide (v.name = name)) ∘
      (fun v => if v.name = n then { v with value } else v) =
      fun v => decide (v.name = name) := by
    funext v
    by_cases hv : v.name = n <;> simp [hv]
  rw [find?_eq, store_eq, List.find?_map, hp, find?_eq]

theorem sameShape_store (t : Table) (n : String) (value : Value) :
    SameShape t (t.store n value) := by
  refine ⟨?_, rfl, rfl⟩
  simp only [handles, store_eq, List.map_map]
  refine List.map_congr_left ?_
  intro v _
  by_cases hv : v.name = n <;> simp [Variable.handle, hv]

/-- A store of the right kind keeps a table well formed.  Names being distinct, it reaches one
variable only. -/
theorem WellFormed.store {t : Table} (hw : t.WellFormed) {n : String} {v : Variable}
    (hv : t.find? n = some v) {value : Value} (hk : value.kind = v.kind) :
    (t.store n value).WellFormed := by
  refine ⟨(sameShape_store t n value).names ▸ hw.names_nodup, ?_⟩
  intro w' hw'
  obtain ⟨w, hwm, rfl⟩ := List.mem_map.mp hw'
  by_cases hn : w.name = n
  · have hwv : w = v := by
      have := find?_of_mem hw.names_nodup hwm
      rw [hn, hv] at this
      exact (Option.some.inj this).symm
    simp only [hn, if_true]
    exact hk.trans (hwv ▸ rfl)
  · simp only [hn, if_false]
    exact hw.kinds w hwm

/-- A store under a name that is not registered changes nothing. -/
theorem store_of_not_mem {t : Table} {n : String} {value : Value} (h : n ∉ t.names) :
    t.store n value = t := by
  have hsame : ∀ v ∈ t.entries, (if v.name = n then { v with value } else v) = v := by
    intro v hv
    exact if_neg fun e => h (List.mem_map.mpr ⟨v, hv, e⟩)
  rw [store_eq, List.map_congr_left hsame, List.map_id']

theorem set_eq_ok_iff {t t' : Table} {name : String} {value : Value} :
    t.set name value = .ok t' ↔
      ∃ v, t.find? name = some v ∧ value.kind = v.kind ∧ t' = t.store name value := by
  unfold set get
  cases hf : t.find? name with
  | none => simp [bind, Except.bind]
  | some v =>
    by_cases hk : value.kind = v.kind
    · simp [bind, Except.bind, Variable.set, hk, eq_comm, pure, Except.pure]
    · simp [bind, Except.bind, Variable.set, hk]

/-- A successful assignment keeps the shape. -/
theorem sameShape_of_assign {t t' : Table} {h : Handle} {value : Value}
    (ha : t.assign h value = .ok t') : SameShape t t' := by
  obtain ⟨v, -, -, rfl⟩ := set_eq_ok_iff.mp ha
  exact sameShape_store t h.name value

theorem WellFormed.assign {t t' : Table} (hw : t.WellFormed) {h : Handle} {value : Value}
    (ha : t.assign h value = .ok t') : t'.WellFormed := by
  obtain ⟨v, hv, hk, rfl⟩ := set_eq_ok_iff.mp ha
  exact hw.store hv hk

/-- A value of a registered handle's kind can be assigned to it. -/
theorem Registers.assign {t : Table} {h : Handle} (hr : t.Registers h) {value : Value}
    (hk : value.kind = h.kind) : t.assign h value = .ok (t.store h.name value) := by
  obtain ⟨v, hv, hvk⟩ := registers_iff.mp hr
  exact set_eq_ok_iff.mpr ⟨v, hv, hk.trans hvk.symm, rfl⟩

/-! ## 5. Fresh names -/

/-- Temporaries with different numbers have different names. -/
theorem tempName_injective (t : Table) {i j : Nat} (h : t.tempName i = t.tempName j) : i = j := by
  have hl := congrArg String.toList h
  simp only [tempName, Decimal.natText, String.toList_append, String.toList_ofList] at hl
  exact Decimal.natChars_injective (List.append_cancel_left hl)

/-- The search passes taken names only, and stops at a free one unless its rounds run out. -/
theorem freeFrom_spec (t : Table) (rounds i : Nat) :
    i ≤ t.freeFrom rounds i ∧
      (∀ j, i ≤ j → j < t.freeFrom rounds i → t.tempName j ∈ t.names) ∧
      (t.tempName (t.freeFrom rounds i) ∉ t.names ∨ t.freeFrom rounds i = i + rounds) := by
  induction rounds generalizing i with
  | zero => exact ⟨Nat.le_refl i, fun j h h' => absurd h' (by simp [freeFrom]; omega), .inr rfl⟩
  | succ rounds ih =>
    rw [freeFrom]
    split
    · next hc =>
      obtain ⟨hle, hpass, hend⟩ := ih (i + 1)
      refine ⟨by omega, ?_, hend.imp_right fun e => by omega⟩
      intro j hij hj
      rcases Nat.lt_or_ge i j with h | h
      · exact hpass j h hj
      · obtain rfl : i = j := by omega
        exact contains_iff.mp hc
    · next hc =>
      refine ⟨Nat.le_refl i, ?_, .inl fun h => hc (contains_iff.mpr h)⟩
      intro j h h'
      omega

/-- The name of the next temporary. -/
def freshName {δ : Type} [Registry δ] (t : Table δ) : String := t.tempName t.freeTemp

/-- Names of temporaries that are taken, one after the other, are not more than there are variables,
because they are pairwise distinct. -/
theorem taken_length_le (t : Table) {i n : Nat}
    (h : ∀ j, i ≤ j → j < i + n → t.tempName j ∈ t.names) : n ≤ t.entries.length := by
  let tried := (List.range' i n).map t.tempName
  have hnodup : tried.Nodup :=
    List.pairwise_map.mpr
      (List.Pairwise.imp (fun hne e => hne (t.tempName_injective e)) List.nodup_range')
  have hsub : tried ⊆ t.names := by
    intro name hname
    obtain ⟨j, hj, rfl⟩ := List.mem_map.mp hname
    rw [List.mem_range'_1] at hj
    exact h j hj.1 hj.2
  have hlen := hnodup.length_le_of_subset hsub
  simpa only [tried, List.length_map, List.length_range', names] using hlen

/-- **The name of the next temporary is free.**  Otherwise every name tried is taken, and these
are more names than there are variables. -/
theorem freshName_not_mem (t : Table) : t.freshName ∉ t.names := by
  obtain ⟨-, hpass, hend⟩ := t.freeFrom_spec (t.entries.length + 1) t.nextTemp
  rcases hend with h | h
  · exact h
  · have hlen := t.taken_length_le fun j hj hlt => hpass j hj (h ▸ hlt)
    omega

/-! ## 6. Registering -/

/-- A free name is another one. -/
theorem nodup_register {t : Table} (ht : t.names.Nodup) {v : Variable} (hn : v.name ∉ t.names) :
    (t.register v).names.Nodup := by
  rw [names_register, List.nodup_append]
  refine ⟨ht, by simp, ?_⟩
  intro a ha b hb
  rw [List.mem_singleton] at hb
  exact fun e => hn (hb ▸ e ▸ ha)

/-- Registering under a free name keeps a table well formed. -/
theorem WellFormed.register {t : Table} (hw : t.WellFormed) {v : Variable} (hn : v.name ∉ t.names)
    (hv : v.WellKinded) : (t.register v).WellFormed := by
  refine ⟨nodup_register hw.names_nodup hn, ?_⟩
  intro w hwm
  rcases List.mem_append.mp hwm with hwm | hwm
  · exact hw.kinds w hwm
  · rw [List.mem_singleton.mp hwm]
    exact hv

/-- A variable that was registered under a free name is found by its handle. -/
theorem registers_register {t : Table} {v : Variable} (hn : v.name ∉ t.names) :
    (t.register v).Registers v.handle := by
  refine registers_iff.mpr ⟨v, ?_, rfl⟩
  have hnone : t.find? v.name = none := find?_eq_none hn
  change (t.entries ++ [v]).find? (fun w => w.name = v.name) = some v
  rw [find?_eq] at hnone
  rw [List.find?_append, hnone]
  simp

/-- What a successful declaration consists of. -/
theorem declare_eq_ok_iff {t t' : Table} {name : String} {ty : Ty} {h : Handle} :
    t.declare name ty = .ok (h, t') ↔
      name ∉ t.names ∧ ∃ k, ty = some k ∧ h = ⟨name, k⟩ ∧ t' = t.register ⟨name, k, .zero k⟩ := by
  unfold declare
  by_cases hc : t.contains name = true
  · simp [hc, contains_iff.mp hc]
  · have hn : name ∉ t.names := fun hm => hc (contains_iff.mpr hm)
    cases ty with
    | none => simp [hc, Variable.ofTy, bind, Except.bind]
    | some k =>
      simp [hc, hn, Variable.ofTy, bind, Except.bind, pure, Except.pure, Variable.handle, eq_comm]

/-! ## 7. Temporaries -/

section
variable {δ : Type} [Registry δ]

/-- The table with one more temporary, which holds this value. -/
def withTemp (t : Table δ) (value : Value) : Table δ :=
  register { t with nextTemp := t.freeTemp + 1 } ⟨t.freshName, value.kind, value⟩

theorem obtainTemp_some (t : Table δ) (k : Kind) :
    t.obtainTemp (some k) = (.ok ⟨t.freshName, k⟩, t.withTemp (.zero k)) := by
  rw [withTemp, Value.kind_zero]
  rfl

/-- Without a type nothing is registered, but a number is used up. -/
theorem obtainTemp_none (t : Table δ) :
    t.obtainTemp none =
      (.error (.untypedVariable t.freshName), { t with nextTemp := t.freeTemp + 1 }) := rfl

theorem obtainTempOf_eq (t : Table δ) (value : Value) :
    t.obtainTempOf value = (⟨t.freshName, value.kind⟩, t.withTemp value) := rfl

end

@[simp] theorem entries_withTemp (t : Table) (value : Value) :
    (t.withTemp value).entries = t.entries ++ [⟨t.freshName, value.kind, value⟩] := rfl

@[simp] theorem names_withTemp (t : Table) (value : Value) :
    (t.withTemp value).names = t.names ++ [t.freshName] := by simp [names]

/-- Obtaining a temporary keeps a table well formed. -/
theorem WellFormed.withTemp {t : Table} (hw : t.WellFormed) (value : Value) :
    (t.withTemp value).WellFormed := by
  have h := hw.register (v := ⟨t.freshName, value.kind, value⟩) t.freshName_not_mem rfl
  exact ⟨h.names_nodup, h.kinds⟩

/-- More variables at the end do not change what a registered name finds. -/
theorem find?_of_prefix {t t' : Table} (h : t.entries <+: t'.entries) {name : String}
    {v : Variable} (hv : t.find? name = some v) : t'.find? name = some v := by
  obtain ⟨new, hnew⟩ := h
  rw [find?_eq, ← hnew, List.find?_append]
  exact Option.or_eq_some_iff.mpr (.inl hv)

theorem mem_names_of_lookup {t : Table} {name : String} {h : Handle}
    (hl : t.lookup name = .ok h) : h.name = name ∧ name ∈ t.names := by
  obtain ⟨v, hv, rfl⟩ := lookup_eq_ok_iff.mp hl
  have hname : v.name = name := name_of_find? hv
  exact ⟨hname, hname ▸ List.mem_map_of_mem (mem_of_find? hv)⟩

theorem lookup_of_prefix {t t' : Table} (hp : t.entries <+: t'.entries) {name : String}
    {h : Handle} (hl : t.lookup name = .ok h) : t'.lookup name = .ok h := by
  obtain ⟨v, hv, rfl⟩ := lookup_eq_ok_iff.mp hl
  exact lookup_eq_ok_iff.mpr ⟨v, find?_of_prefix hp hv, rfl⟩

theorem Registers.of_prefix {t t' : Table} (h : t.entries <+: t'.entries) {g : Handle}
    (hg : t.Registers g) : t'.Registers g := lookup_of_prefix h hg

theorem names_subset_of_prefix {t t' : Table} (h : t.entries <+: t'.entries) :
    t.names ⊆ t'.names := by
  intro name hname
  obtain ⟨v, hv, rfl⟩ := List.mem_map.mp hname
  exact List.mem_map_of_mem (h.subset hv)

/-- A new temporary is registered under its handle. -/
theorem registers_withTemp (t : Table) (value : Value) :
    (t.withTemp value).Registers ⟨t.freshName, value.kind⟩ :=
  registers_register (v := ⟨t.freshName, value.kind, value⟩) t.freshName_not_mem

/-! ## 8. Two tables side by side -/

section
variable {δ κ : Type} [Registry δ] [Registry κ] {t : Table δ} {t' : Table κ} {name : String}

/-- Tables that find the same variable give the same. -/
theorem get_of_find? (h : t.find? name = t'.find? name) : t.get name = t'.get name := by
  rw [get, get, h]

theorem lookup_of_find? (h : t.find? name = t'.find? name) : t.lookup name = t'.lookup name := by
  rw [lookup, lookup, get_of_find? h]

theorem valueOf_of_find? {g : Handle} (h : t.find? g.name = t'.find? g.name) :
    t.valueOf g = t'.valueOf g := by
  rw [valueOf, valueOf, get_of_find? h]

/-- Tables that have the same names, and the same stem of temporaries, pass the same numbers. -/
theorem freeFrom_of_contains (hstem : t.tempStem = t'.tempStem)
    (hc : ∀ name, t.contains name = t'.contains name) (rounds i : Nat) :
    t.freeFrom rounds i = t'.freeFrom rounds i := by
  induction rounds generalizing i with
  | zero => rfl
  | succ rounds ih => rw [freeFrom, freeFrom, tempName, tempName, hstem, hc, ih]

theorem freeTemp_of_contains (hstem : t.tempStem = t'.tempStem)
    (hc : ∀ name, t.contains name = t'.contains name) (hn : t.toList.length = t'.toList.length)
    (hnext : t.nextTemp = t'.nextTemp) : t.freeTemp = t'.freeTemp := by
  rw [freeTemp, freeTemp, freeFrom_of_contains hstem hc, hn, hnext]

theorem freshName_of_freeTemp (hstem : t.tempStem = t'.tempStem) (h : t.freeTemp = t'.freeTemp) :
    t.freshName = t'.freshName := by
  rw [freshName, freshName, tempName, tempName, hstem, h]

/-- Tables that find the same variable refuse a value for one reason, or both store it. -/
theorem set_of_find? (h : t.find? name = t'.find? name) (value : Value) :
    (∃ e, t.set name value = .error e ∧ t'.set name value = .error e) ∨
      t.set name value = .ok (t.store name value) ∧
        t'.set name value = .ok (t'.store name value) := by
  rw [set, set, ← get_of_find? h]
  cases t.get name with
  | error e => exact .inl ⟨e, rfl, rfl⟩
  | ok w =>
    by_cases hk : value.kind = w.kind
    · have hset : w.set value = .ok { w with value } := if_pos hk
      exact .inr (by simp [hset, bind, Except.bind, pure, Except.pure])
    · have hset : w.set value = .error (.typeMismatch w.kind.name value.kind.name) := if_neg hk
      exact .inl (by simp [hset, bind, Except.bind])

end

end Table
end ProcTree
