/-
# Variables and handles

A variable is a named place whose kind is fixed when it is made and which always holds a value of
that kind (`WellKinded`).  A handle names a variable and carries its kind, so that a tree that
refers to variables can be typed without looking at them.

A declaration is the line that writes a variable into program text.
-/
import ProcTree.Text.Literal
import ProcTree.Value.Basic

namespace ProcTree

/-- A reference to a variable. -/
structure Handle where
  name : String
  kind : Kind
deriving DecidableEq, Repr

/-- A named place for values of one kind. -/
structure Variable where
  name : String
  kind : Kind
  value : Value
deriving DecidableEq, Repr

namespace Variable

/-- The value has the variable's kind. -/
def WellKinded (v : Variable) : Prop := v.value.kind = v.kind

instance (v : Variable) : Decidable v.WellKinded := by unfold WellKinded; infer_instance

/-- A variable that holds the zero of its kind; without a kind there is none. -/
def ofTy (name : String) : Ty → Except Error Variable
  | some k => .ok ⟨name, k, .zero k⟩
  | none => .error (.untypedVariable name)

/-- A variable of the kind of this value, which it holds. -/
def ofValue (name : String) (value : Value) : Variable := ⟨name, value.kind, value⟩

def handle (v : Variable) : Handle := ⟨v.name, v.kind⟩

/-- The variable with another value of its kind.  Nothing is converted: a real variable refuses
an integer. -/
def set (v : Variable) (value : Value) : Except Error Variable :=
  if value.kind = v.kind then .ok { v with value }
  else .error (.typeMismatch v.kind.name value.kind.name)

theorem wellKinded_ofValue (name : String) (value : Value) :
    (ofValue name value).WellKinded := rfl

/-! ## Declarations in program text -/

/-- The value in a declaration: a string is a literal, everything else is as printed. -/
def valueChars : Value → List Char
  | .string s => Text.literal s.toList
  | v => v.text.toList

/-- The line that declares the variable. -/
def declaration (v : Variable) : String :=
  "    %var\t@" ++ v.name ++ "," ++ v.kind.name ++ "," ++ String.ofList (valueChars v.value)

end Variable
end ProcTree
