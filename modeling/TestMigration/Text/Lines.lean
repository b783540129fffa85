import TestMigration.Text.Blank

/-!
# Lines and locations

A newline ends a line. `Text.lastLine` is what follows the last newline, so the line that holds an
offset starts `lastLine` of the text before it back from that offset. `Text.locationAt` counts lines
and byte columns from one.
-/

namespace TestMigration

/-- A place in a source file; lines and columns count from one, columns in bytes. -/
structure Location where
  line : Nat
  column : Nat
  endLine : Option Nat := none
  endColumn : Option Nat := none
deriving DecidableEq, Repr, Inhabited

namespace Location

/-- `a` stands before `b`, by line and then by column. -/
def before (a b : Location) : Bool :=
  a.line < b.line || (a.line == b.line && a.column < b.column)

/-- `line:column`, as messages quote a place. -/
def text (l : Location) : String := toString l.line ++ ":" ++ toString l.column

end Location

namespace Text

/-- What follows the last newline; the whole text when there is none. -/
def lastLine (t : Text) : Text := (t.reverse.takeWhile (· != '\n')).reverse

/-- Offset of the first byte of the line that holds `offset`. -/
def lineStart (t : Text) (offset : Nat) : Nat :=
  let before := t.takeBytes offset
  size before - size (lastLine before)

/-- Spaces and tabs that begin the line that holds `offset`. -/
def lineIndent (t : Text) (offset : Nat) : String :=
  String.ofList ((t.dropBytes (t.lineStart offset)).takeWhile isMargin)

def locationAt (t : Text) (offset : Nat) : Location :=
  let before := t.takeBytes offset
  { line := before.count '\n' + 1, column := size (lastLine before) + 1 }

/-- Location of a span, with the place where it stops. -/
def locationOf (t : Text) (s : Span) : Location :=
  let first := t.locationAt s.start
  let last := t.locationAt s.stop
  { first with endLine := some last.line, endColumn := some last.column }

/-- The text is at its end or at the end of a line. -/
def atLineEnd (t : Text) : Bool :=
  t.isEmpty || startsWith t "\n" || startsWith t "\r\n"

/-- Without the carriage return that a line break may begin with. -/
def dropReturn (line : Text) : Text :=
  if line.getLast? = some '\r' then line.dropLast else line

/-- The lines of a text without their line breaks. A break at the very end opens no line. -/
def lines (t : Text) : List Text :=
  match (splitAt '\n' t).reverse with
  | [] => []
  | last :: rest =>
    let ended := rest.reverse.map dropReturn
    if last.isEmpty then ended else ended ++ [last]

end Text

end TestMigration
