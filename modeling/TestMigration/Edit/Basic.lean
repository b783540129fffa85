import TestMigration.Expr.Basic
import TestMigration.Text.Lines

/-!
# Edits

An edit replaces a span of the file by text, by a synthesised expression or by nothing. Edits are
collected in the order of their discovery; `Edit.covers` tells whether some of them already replace a
span, and `deletionSpan` widens the span of a statement that is to go by the blanks that separate it.
-/

namespace TestMigration

/-- What takes the place of a span. -/
inductive Replacement where
  | expr (e : Expr)
  | text (s : String)
  | delete

instance : Inhabited Replacement := ⟨.delete⟩

/-- A change of the file; `rule` names what asked for it. -/
structure Edit where
  span : Span
  replacement : Replacement
  rule : String
deriving Inhabited

namespace Edit

/-- The edit replaces no byte and only adds text. -/
def isInsert (e : Edit) : Bool := e.span.isEmpty

/-- The edit only removes. -/
def isDelete (e : Edit) : Bool :=
  match e.replacement with
  | .delete => true
  | _ => false

def replace (span : Span) (e : Expr) (rule : String) : Edit := ⟨span, .expr e, rule⟩

def replaceText (span : Span) (s : String) (rule : String) : Edit := ⟨span, .text s, rule⟩

def insert (offset : Nat) (s : String) (rule : String) : Edit := ⟨⟨offset, offset⟩, .text s, rule⟩

/-- Some edit of the list other than an insertion reaches over the whole span. -/
def covers (edits : List Edit) (span : Span) : Bool :=
  edits.any fun e => !e.isInsert && e.span.contains span

end Edit

/-- The span to delete for a statement: its whole line when nothing else stands on it, otherwise the
statement with the blanks between it and its neighbours on the line. -/
def deletionSpan (source : Text) (s : Span) : Span :=
  let lineStart := source.lineStart s.start
  let before := source.slice lineStart s.start
  let rest := source.dropBytes s.stop
  let after := s.stop + Text.size (rest.takeWhile isMargin)
  let tail := rest.dropWhile isMargin
  if !Text.isBlank before then
    -- the statement before keeps its end, an opening brace keeps one blank
    if Text.atLineEnd tail then
      ⟨lineStart + Text.size (Text.dropBackWhile isMargin before), after⟩
    else ⟨s.start, after⟩
  else if Text.startsWith tail "\r\n" then ⟨lineStart, after + 2⟩
  else if Text.startsWith tail "\n" then ⟨lineStart, after + 1⟩
  else if tail.isEmpty then ⟨lineStart, after⟩
  else ⟨s.start, after⟩

/-- Delete a statement with the blanks that separate it. -/
def Edit.deleteStatement (source : Text) (s : Span) (rule : String) : Edit :=
  ⟨deletionSpan source s, .delete, rule⟩

end TestMigration
