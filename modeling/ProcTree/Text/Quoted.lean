/-
# Quoted texts in messages

A message shows a name or a line between double quotes, so that blanks and controls in it can be
seen: quote, backslash, NUL, tab, line feed and carriage return have short forms, and every other
character that is unprintable or extends its neighbour is written by number, as in \u{301}.
-/
import ProcTree.Text.Extender
import ProcTree.Text.Unprintable

namespace ProcTree.Text

/-- A character by number: lower-case hexadecimal without leading zeros, in braces. -/
def numbered (c : Char) : List Char :=
  '\\' :: 'u' :: '\x7b' :: (Nat.toDigits 16 c.toNat ++ ['\x7d'])

/-- One character as a message shows it.  The apostrophe stands for itself. -/
def quotedChar (c : Char) : List Char :=
  match c with
  | '"' => ['\\', '"']
  | '\\' => ['\\', '\\']
  | '\x00' => ['\\', '0']
  | '\t' => ['\\', 't']
  | '\n' => ['\\', 'n']
  | '\r' => ['\\', 'r']
  | c =>
    if ' ' ≤ c && c ≤ '~' then [c]
    else if isExtender c || isUnprintable c then numbered c
    else [c]

/-- The text as a message shows it, between double quotes. -/
def quoted (s : String) : String :=
  String.ofList ('"' :: (s.toList.flatMap quotedChar ++ ['"']))

end ProcTree.Text
