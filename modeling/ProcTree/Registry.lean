/-
# Registries of variables

A registry keeps variables in the order in which they were registered, and finds them by name.  It
can be a list, which is searched from its start, or an indexed list, which has a map from names to
places beside the variables.  The map is kept up to date by registration, and everything that reads
or changes a variable goes to the place that the map has for its name.

While no two variables have one name, both do the same, whatever is done with a table or a tree.
-/
import ProcTree.Variable

namespace ProcTree

/-- A way to keep variables and to find them by name. -/
class Registry (δ : Type) where
  /-- The registry without variables. -/
  empty : δ
  /-- The variables, in the order in which they were registered. -/
  toList : δ → List Variable
  /-- The name is registered. -/
  contains : δ → String → Bool
  /-- The variable of this name. -/
  find? : δ → String → Option Variable
  /-- Puts a value into the variable of this name, whatever its kind. -/
  store : δ → String → Value → δ
  /-- Puts a variable at the end. -/
  push : δ → Variable → δ

/-! ## 1. Lists -/

/-- A list is searched for the name.  It is the registry that is meant where nothing says which. -/
@[default_instance]
instance Registry.list : Registry (List Variable) where
  empty := []
  toList vs := vs
  contains vs name := vs.any fun v => v.name = name
  find? vs name := vs.find? fun v => v.name = name
  store vs name value := vs.map fun v => if v.name = name then { v with value } else v
  push vs v := vs ++ [v]

/-! ## 2. Lists with an index -/

/-- A map from names to places. -/
abbrev Index := String → Option Nat

/-- The map without names. -/
def Index.empty : Index := fun _ => none

/-- The map with this place for the name, and not with an earlier one. -/
def Index.insert (index : Index) (name : String) (place : Nat) : Index :=
  fun n => if n = name then some place else index n

/-- Variables, and a map from their names to their places. -/
structure IndexedList where
  toList : List Variable
  index : Index

namespace IndexedList

def empty : IndexedList := ⟨[], .empty⟩

/-- The map has the name. -/
def contains (vs : IndexedList) (name : String) : Bool := (vs.index name).isSome

/-- The variable at the place that the map has for the name. -/
def find? (vs : IndexedList) (name : String) : Option Variable :=
  (vs.index name).bind fun i => vs.toList[i]?

/-- Puts a value into the variable at the place that the map has for the name. -/
def store (vs : IndexedList) (name : String) (value : Value) : IndexedList :=
  match vs.index name with
  | some i => { vs with toList := vs.toList.modify i fun v => { v with value } }
  | none => vs

/-- Puts a variable at the end, and its place into the map. -/
def push (vs : IndexedList) (v : Variable) : IndexedList :=
  ⟨vs.toList ++ [v], vs.index.insert v.name vs.toList.length⟩

end IndexedList

/-- An indexed list goes by its map. -/
instance Registry.indexed : Registry IndexedList where
  empty := .empty
  toList := IndexedList.toList
  contains := IndexedList.contains
  find? := IndexedList.find?
  store := IndexedList.store
  push := IndexedList.push

end ProcTree
