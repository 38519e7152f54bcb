/-
# The output of a program

Everything a program writes goes to one output, as bytes.  An output may have a capacity: the part
of a text that fits is kept and the write fails, and writing nothing never fails.  Closing may fail
too; bytes once written stay.
-/
import ProcTree.Error

namespace ProcTree

/-- What has been written so far, and what the output will still do. -/
structure Output where
  bytes : List UInt8
  /-- How many bytes there is room for in all; without a bound there is always room. -/
  capacity : Option Nat
  /-- Why closing the output fails, if it does. -/
  closeFault : Option String
deriving DecidableEq, Repr

namespace Output

/-- An output without a bound. -/
def unbounded : Output := ⟨[], none, none⟩

/-- The bytes that a text is written as. -/
def encode (s : String) : List UInt8 := s.toUTF8.data.toList

/-- The first of these bytes, as many as there is room for. -/
def fitting (o : Output) (bs : List UInt8) : List UInt8 :=
  match o.capacity with
  | none => bs
  | some n => bs.take (n - o.bytes.length)

/-- The output after the bytes that fit. -/
def append (o : Output) (bs : List UInt8) : Output := { o with bytes := o.bytes ++ o.fitting bs }

/-- The failure of a write that did not fit. -/
def overflow : Error := .io "failed to write whole buffer"

/-- Writes a text, and says whether all of it fitted. -/
def write (o : Output) (s : String) : Except Error Unit × Output :=
  let bs := encode s
  (if o.fitting bs = bs then .ok () else .error overflow, o.append bs)

/-- Hands over what was written. -/
def close (o : Output) : Except Error Unit :=
  match o.closeFault with
  | none => .ok ()
  | some message => .error (.io message)

/-- What was written, as text.  A character that was cut off at the end shows as one replacement
character. -/
def text (o : Output) : String :=
  let decode (cut : Nat) : Option String :=
    String.fromUTF8? ⟨(o.bytes.take (o.bytes.length - cut)).toArray⟩
  match decode 0 with
  | some s => s
  | none =>
    match [1, 2, 3].findSome? decode with
    | some s => s ++ "\uFFFD"
    | none => "\uFFFD"

end Output
end ProcTree
