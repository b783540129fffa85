/-!
# Style

How generated code is written: which quote, semicolons or none, and the unit of indentation.
-/

namespace TestMigration

/-- Conventions of the file that generated code follows. -/
structure Style where
  quote : Char := '\''
  semicolons : Bool := true
  indentUnit : String := "  "
deriving DecidableEq, Repr, Inhabited

namespace Style

def terminator (s : Style) : String := if s.semicolons then ";" else ""

def quoteText (s : Style) : String := String.singleton s.quote

end Style

end TestMigration
