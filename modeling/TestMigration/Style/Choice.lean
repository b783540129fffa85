import TestMigration.Style.Basic

/-!
# Chosen styles

A configuration may fix parts of the style; what it leaves open follows the file.
-/

namespace TestMigration

/-- Which quote generated strings have. -/
inductive QuoteChoice where
  | auto
  | single
  | double
deriving DecidableEq, Repr, Inhabited

namespace QuoteChoice

def all : List QuoteChoice := [auto, single, double]

def name : QuoteChoice → String
  | auto => "auto"
  | single => "single"
  | double => "double"

end QuoteChoice

/-- Whether generated statements end with a semicolon. -/
inductive SemicolonChoice where
  | auto
  | always
  | never
deriving DecidableEq, Repr, Inhabited

namespace SemicolonChoice

def all : List SemicolonChoice := [auto, always, never]

def name : SemicolonChoice → String
  | auto => "auto"
  | always => "always"
  | never => "never"

end SemicolonChoice

/-- The parts of the style that a configuration fixes. -/
structure StyleChoice where
  quote : QuoteChoice := .auto
  semicolons : SemicolonChoice := .auto
  indent : Option String := none
deriving DecidableEq, Repr, Inhabited

namespace StyleChoice

/-- A style with the fixed parts in place of what was detected. -/
def apply (c : StyleChoice) (detected : Style) : Style :=
  { quote :=
      match c.quote with
      | .auto => detected.quote
      | .single => '\''
      | .double => '"'
    semicolons :=
      match c.semicolons with
      | .auto => detected.semicolons
      | .always => true
      | .never => false
    indentUnit := c.indent.getD detected.indentUnit }

/-- The choice, with open parts taken from a base. -/
def inherit (c base : StyleChoice) : StyleChoice :=
  { quote := if c.quote == .auto then base.quote else c.quote
    semicolons := if c.semicolons == .auto then base.semicolons else c.semicolons
    indent := c.indent <|> base.indent }

end StyleChoice

end TestMigration
