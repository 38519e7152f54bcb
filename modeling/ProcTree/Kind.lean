/-
# Kinds of values and static types

A value is a boolean, an integer, a real or a string.  A node of a program tree has the kind of
the value that it produces as its static type, and no kind when it produces none, so that a
static type is an optional kind.

`Ty.accepts` is the one conversion of the language: a real place takes an integer.
-/

namespace ProcTree

/-! ## 1. Kinds -/

/-- The four kinds of values. -/
inductive Kind where
  | boolean
  | integer
  | real
  | string
deriving DecidableEq, Repr

namespace Kind

def name : Kind → String
  | boolean => "Boolean"
  | integer => "Integer"
  | real => "Real"
  | string => "String"

def all : List Kind := [boolean, integer, real, string]

def ofName? (s : String) : Option Kind := all.find? fun k => k.name = s

/-- The kinds that arithmetic and mixed comparisons work on. -/
def isNumeric : Kind → Bool
  | integer | real => true
  | boolean | string => false

theorem ofName?_name (k : Kind) : ofName? k.name = some k := by cases k <;> rfl

theorem name_injective {k l : Kind} (h : k.name = l.name) : k = l := by
  have := ofName?_name k
  rw [h, ofName?_name] at this
  exact (Option.some.inj this).symm

end Kind

/-! ## 2. Static types -/

/-- The kind of the value that a node produces; none for a node that produces no value. -/
abbrev Ty := Option Kind

namespace Ty

def name : Ty → String
  | some k => k.name
  | none => "no-type"

/-- The static types, the one without a value first. -/
def all : List Ty := none :: Kind.all.map some

def ofName? (s : String) : Option Ty := all.find? fun t => Ty.name t = s

def isNumeric : Ty → Bool
  | some k => k.isNumeric
  | none => false

/-- A place of the first type takes a value of the second: the same type, or an integer where a
real is expected. -/
def accepts (expected received : Ty) : Bool :=
  expected = received || (expected = some .real && received = some .integer)

theorem ofName?_name (t : Ty) : ofName? (Ty.name t) = some t := by
  rcases t with _ | k
  · rfl
  · cases k <;> rfl

end Ty
end ProcTree
