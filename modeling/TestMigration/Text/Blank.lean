import TestMigration.Text.Basic

/-!
# Blank characters

The characters with the Unicode property `White_Space`, and trimming by them. Indentation counts
only the two blanks of a line's margin, space and tab.
-/

namespace TestMigration

/-- The character has the Unicode property `White_Space`. -/
def isBlank (c : Char) : Bool :=
  let n := c.toNat
  (9 ≤ n && n ≤ 13) || n == 32 || n == 0x85 || n == 0xA0 || n == 0x1680
    || (0x2000 ≤ n && n ≤ 0x200A) || n == 0x2028 || n == 0x2029 || n == 0x202F || n == 0x205F
    || n == 0x3000

/-- Space or tab, the characters an indentation is made of. -/
def isMargin (c : Char) : Bool := c == ' ' || c == '\t'

namespace Text

/-- Only blank characters, or none. -/
def isBlank (t : Text) : Bool := t.all TestMigration.isBlank

/-- The text without blanks at its two ends. -/
def trim (t : Text) : Text :=
  dropBackWhile TestMigration.isBlank (t.dropWhile TestMigration.isBlank)

end Text

end TestMigration
