/-
# Symbol tables

A table holds the variables of one program in the order in which they were registered, which is
also the order of the declarations block.  Variables are declared by name, or obtained as
temporaries, whose names are a prefix and the first unused number.

The operations are the same whatever registry keeps the variables.  A plain `Table` keeps them in a
list; an `IndexedTable` goes by a map from names to places.  A table made by its operations is well
formed: names are pairwise distinct and every variable holds a value of its kind.
-/
import ProcTree.Registry
import ProcTree.Text.Lines

namespace ProcTree

/-- The variables of a program and the supply of temporary names. -/
structure Table (δ : Type := List Variable) where
  entries : δ
  /-- What the name of every temporary starts with. -/
  tempStem : String
  /-- The next number to try for a temporary. -/
  nextTemp : Nat
deriving DecidableEq, Repr

/-- A table that finds its variables by a map from names to places. -/
abbrev IndexedTable := Table IndexedList

namespace Table

variable {δ : Type} [Registry δ]

/-! ## 1. Reading -/

/-- An empty table; temporaries are named after the stem. -/
def empty (tempStem : String) : Table δ := ⟨Registry.empty, tempStem, 0⟩

/-- The stem of temporaries when none is chosen. -/
def defaultStem : String := "_tempVar"

/-- The registered variables, in order. -/
def toList (t : Table δ) : List Variable := Registry.toList t.entries

def names (t : Table) : List String := t.entries.map Variable.name

/-- The variable of this name. -/
def find? (t : Table δ) (name : String) : Option Variable := Registry.find? t.entries name

/-- The name is registered. -/
def contains (t : Table δ) (name : String) : Bool := Registry.contains t.entries name

def get (t : Table δ) (name : String) : Except Error Variable :=
  match t.find? name with
  | some v => .ok v
  | none => .error (.notDeclared name)

/-- The handle of a registered variable. -/
def lookup (t : Table δ) (name : String) : Except Error Handle := (t.get name).map Variable.handle

/-- The value of the variable that the handle names. -/
def valueOf (t : Table δ) (h : Handle) : Except Error Value := (t.get h.name).map Variable.value

/-- Distinct names, and values of the variables' kinds. -/
structure WellFormed (t : Table) : Prop where
  names_nodup : t.names.Nodup
  kinds : ∀ v ∈ t.entries, v.WellKinded

/-! ## 2. Storing -/

/-- Puts a value into the variable of this name, whatever its kind. -/
def store (t : Table δ) (name : String) (value : Value) : Table δ :=
  { t with entries := Registry.store t.entries name value }

/-- Stores a value under a name.  The table stays as it is when that fails. -/
def set (t : Table δ) (name : String) (value : Value) : Except Error (Table δ) := do
  let v ← t.get name
  let v ← v.set value
  return t.store name v.value

/-- Stores a value into the variable that the handle names. -/
def assign (t : Table δ) (h : Handle) (value : Value) : Except Error (Table δ) := t.set h.name value

/-! ## 3. Registering -/

/-- Puts a variable at the end. -/
def register (t : Table δ) (v : Variable) : Table δ :=
  { t with entries := Registry.push t.entries v }

/-- Declares a variable that holds the zero of its type.  A registered name is refused before the
type is looked at. -/
def declare (t : Table δ) (name : String) (ty : Ty) : Except Error (Handle × Table δ) :=
  if t.contains name then .error (.alreadyDeclared name)
  else do
    let v ← Variable.ofTy name ty
    return (v.handle, t.register v)

/-- The name of the temporary with this number. -/
def tempName (t : Table δ) (i : Nat) : String := t.tempStem ++ Decimal.natText i

/-- The first number from `i` on whose name is free, among the next `rounds`. -/
def freeFrom (t : Table δ) : Nat → Nat → Nat
  | 0, i => i
  | rounds + 1, i => if t.contains (t.tempName i) then t.freeFrom rounds (i + 1) else i

/-- The number of the next temporary.  One round more than there are variables always meets a
free name, because the names tried are pairwise distinct. -/
def freeTemp (t : Table δ) : Nat := t.freeFrom (t.toList.length + 1) t.nextTemp

/-- Uses up the number of the next temporary, and gives its name. -/
def takeTempName (t : Table δ) : String × Table δ :=
  let i := t.freeTemp
  (t.tempName i, { t with nextTemp := i + 1 })

/-- Registers a temporary that holds the zero of its type.  Without a type nothing is registered,
but the number is used up all the same. -/
def obtainTemp (t : Table δ) (ty : Ty) : Except Error Handle × Table δ :=
  let (name, t) := t.takeTempName
  match Variable.ofTy name ty with
  | .ok v => (.ok v.handle, t.register v)
  | .error e => (.error e, t)

/-- Registers a temporary that holds this value. -/
def obtainTempOf (t : Table δ) (value : Value) : Handle × Table δ :=
  let (name, t) := t.takeTempName
  let v := Variable.ofValue name value
  (v.handle, t.register v)

end Table

/-! ## 4. The declarations block -/

/-- The line that opens a declarations block. -/
def beginMarker : String := "  %beginVarDecl"

/-- The line that closes a declarations block. -/
def endMarker : String := "  %endVarDecl"

/-- The lines of a declarations block, markers included. -/
def declarationLines (vs : List Variable) : List String :=
  beginMarker :: (vs.map Variable.declaration ++ [endMarker])

/-- The declarations block of every registered variable. -/
def Table.text {δ : Type} [Registry δ] (t : Table δ) : String :=
  Text.unlines (declarationLines t.toList)

end ProcTree
