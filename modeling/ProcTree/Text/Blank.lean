/-
# Blank characters

The twenty-five characters with the Unicode property White_Space.  A line that holds nothing
else is a blank line, and no variable name that can be written out contains one of them.

The set is wider than core's `Char.isWhitespace` and has no zero-width characters.
-/

namespace ProcTree.Text

/-- White_Space: tab to carriage return, the space, next line, and the wide and narrow spaces. -/
def isBlank (c : Char) : Bool :=
  let n := c.toNat
  (9 ≤ n && n ≤ 13) || n = 0x20 || n = 0x85 || n = 0xA0 || n = 0x1680 ||
    (0x2000 ≤ n && n ≤ 0x200A) || n = 0x2028 || n = 0x2029 || n = 0x202F || n = 0x205F ||
    n = 0x3000

/-- A line of blanks only; the empty line is one. -/
def isBlankLine (line : List Char) : Bool := line.all isBlank

end ProcTree.Text
