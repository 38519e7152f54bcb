/-
# String literals in a declaration

A string value is written between double quotes, and inside them backslash, double quote, line
feed, carriage return and tab are written as two characters, so that a declaration stays on one
line.  `escape` writes the inside and `unescape?` reads it: every backslash must start one of
the five escapes and no quote may stand bare.  A raw tab or carriage return is read as itself
although `escape` never writes one.

`unescape?_escape` and `ofLiteral?_literal` say that what is written is read back.
-/

namespace ProcTree.Text

/-- One character inside a literal. -/
def escapeChar : Char → List Char
  | '\\' => ['\\', '\\']
  | '"' => ['\\', '"']
  | '\n' => ['\\', 'n']
  | '\r' => ['\\', 'r']
  | '\t' => ['\\', 't']
  | c => [c]

/-- The inside of a literal for the given characters. -/
def escape (s : List Char) : List Char := s.flatMap escapeChar

/-- The character that a backslash followed by this one stands for. -/
def escaped? : Char → Option Char
  | '\\' => some '\\'
  | '"' => some '"'
  | 'n' => some '\n'
  | 'r' => some '\r'
  | 't' => some '\t'
  | _ => none

/-- The characters written by the inside of a literal; none for a bare quote, for an unknown
escape or for a backslash at the end. -/
def unescape? : List Char → Option (List Char)
  | [] => some []
  | '\\' :: [] => none
  | '\\' :: c :: r => (escaped? c).bind fun d => (unescape? r).map (d :: ·)
  | c :: r => if c = '"' then none else (unescape? r).map (c :: ·)

theorem escape_cons (c : Char) (r : List Char) : escape (c :: r) = escapeChar c ++ escape r := by
  simp [escape]

/-- What is written inside a literal is read back. -/
theorem unescape?_escape (s : List Char) : unescape? (escape s) = some s := by
  induction s with
  | nil => rfl
  | cons c r ih =>
    rw [escape_cons]
    unfold escapeChar
    split <;> simp_all [unescape?, escaped?]

/-- A whole literal, quotes included. -/
def literal (s : List Char) : List Char := '"' :: (escape s ++ ['"'])

/-- Reads a whole literal.  The opening and the closing quote are two characters. -/
def ofLiteral? : List Char → Option (List Char)
  | '"' :: r => if r.getLast? = some '"' then unescape? r.dropLast else none
  | _ => none

theorem ofLiteral?_literal (s : List Char) : ofLiteral? (literal s) = some s := by
  simp [literal, ofLiteral?, unescape?_escape]

end ProcTree.Text
