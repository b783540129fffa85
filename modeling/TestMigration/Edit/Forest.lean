import TestMigration.Edit.Basic

/-!
# The forest of edits

Edits nest by containment. `nest` goes once over the edits in the order of their positions with a
stack of the edits still open, and hangs each one under the innermost open edit that holds it. An edit
that begins inside an open edit and ends behind it overlaps it and is dropped.
-/

namespace TestMigration

/-- An edit with the edits that lie inside its span, in the order of their positions. -/
inductive EditTree where
  | node (edit : Edit) (children : List EditTree)

namespace EditTree

def edit : EditTree → Edit
  | node e _ => e

/-- The trees right below the top. -/
def children : EditTree → List EditTree
  | node _ cs => cs

end EditTree

namespace Edit

/-! ### Order of positions -/

/-- `a` comes before `b` or at the same place: by start, insertions first, longer spans first. -/
def precedes (a b : Edit) : Bool :=
  if a.span.start != b.span.start then a.span.start < b.span.start
  else if a.isInsert != b.isInsert then a.isInsert
  else b.span.stop ≤ a.span.stop

/-- `e` put into an ordered list, in front of its equals. -/
def insertByPosition (e : Edit) : List Edit → List Edit
  | [] => [e]
  | f :: rest => if e.precedes f then e :: f :: rest else f :: insertByPosition e rest

/-- The edits by position; equals keep the order of their discovery. -/
def sortByPosition (edits : List Edit) : List Edit := edits.foldr insertByPosition []

/-! ### Nesting -/

/-- `e` begins inside the open edit `o`; an insertion has to lie strictly inside. -/
def opensInside (o e : Edit) : Bool :=
  if e.isInsert then o.span.start < e.span.start && e.span.start < o.span.stop
  else e.span.start < o.span.stop

end Edit

/-- An edit whose end has not been reached, with the trees found inside so far, last first. -/
structure OpenEdit where
  edit : Edit
  inside : List EditTree

namespace OpenEdit

def close (o : OpenEdit) : EditTree := .node o.edit o.inside.reverse

end OpenEdit

/-- State of the pass over the edits. -/
structure Nesting where
  /-- The open edits, innermost first. -/
  opened : List OpenEdit := []
  /-- The finished trees at the top, last first. -/
  roots : List EditTree := []
  /-- The dropped edits with the edit that each of them overlaps, last first. -/
  dropped : List (Edit × Edit) := []

namespace Nesting

/-- Close open edits from the innermost one until `stays` holds of one. `finished` are the trees
closed last, which belong to the next open edit or to the roots. -/
def closeUntil (stays : Edit → Bool) :
    List OpenEdit → List EditTree → List EditTree → List OpenEdit × List EditTree
  | [], finished, roots => ([], finished ++ roots)
  | o :: rest, finished, roots =>
    let o : OpenEdit := { o with inside := finished ++ o.inside }
    if stays o.edit then (o :: rest, roots) else closeUntil stays rest [o.close] roots

/-- Put the next edit, in the order of positions, where it belongs. -/
def place (n : Nesting) (e : Edit) : Nesting :=
  let (opened, roots) := closeUntil (·.opensInside e) n.opened [] n.roots
  match opened with
  | [] =>
    if e.isInsert then { n with opened := [], roots := .node e [] :: roots }
    else { n with opened := [⟨e, []⟩], roots }
  | o :: rest =>
    if e.isInsert then
      { n with opened := { o with inside := .node e [] :: o.inside } :: rest, roots }
    else if o.edit.span.stop < e.span.stop then
      { opened, roots, dropped := (e, o.edit) :: n.dropped }
    else { n with opened := ⟨e, []⟩ :: opened, roots }

/-- All open edits closed. -/
def finish (n : Nesting) : List EditTree :=
  (closeUntil (fun _ => false) n.opened [] n.roots).2.reverse

end Nesting

/-- The forest of a list of edits and the edits dropped from it, each with the one it overlaps. -/
def nest (edits : List Edit) : List EditTree × List (Edit × Edit) :=
  let n := (Edit.sortByPosition edits).foldl Nesting.place {}
  (n.finish, n.dropped.reverse)

end TestMigration
