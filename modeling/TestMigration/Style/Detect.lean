import TestMigration.Style.Basic
import TestMigration.Tree.Site

/-!
# Detecting the style of a file

The quote that most strings have, semicolons when at least half of the statements have them, and the
least indentation of a line.
-/

namespace TestMigration

namespace Style

/-- Kinds of statements that show whether semicolons are written. -/
def showsSemicolon : Kind → Bool
  | .expressionStatement | .lexicalDeclaration | .variableDeclaration | .importStatement
  | .returnStatement => true
  | _ => false

/-- The first byte of the node is the character. -/
def beginsWith (source : Text) (c : Char) (s : Site) : Bool :=
  (source.dropBytes s.span.start).head? == some c

/-- The indentation unit: a tab as soon as a line begins with one, otherwise as many spaces as the
least indented line that is indented at all has, or two. `least` is what the lines before gave. -/
def indentUnitGo : Option Nat → List Text → String
  | least, [] => String.ofList (List.replicate (least.getD 2) ' ')
  | least, line :: rest =>
    if Text.isBlank line then indentUnitGo least rest
    else if line.head? == some '\t' then "\t"
    else
      let spaces := (line.takeWhile (· == ' ')).length
      if spaces = 0 then indentUnitGo least rest
      else indentUnitGo (some (min (least.getD spaces) spaces)) rest

/-- The indentation unit of a text. -/
def indentUnitOf (source : Text) : String := indentUnitGo none source.lines

def detect (source : Text) (tree : Node) : Style :=
  let sites := tree.sites
  let strings := sites.filter (·.kind == .string)
  let single := strings.countP (beginsWith source '\'')
  let double := strings.countP (beginsWith source '"')
  let statements := sites.filter (showsSemicolon ·.kind)
  let ended := statements.countP fun s => Text.endsWith (source.slice s.span.start s.span.stop) ";"
  { quote := if single < double then '"' else '\''
    semicolons := statements.length - ended ≤ ended
    indentUnit := indentUnitOf source }

end Style

end TestMigration
