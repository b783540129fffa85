import TestMigration.Edit.Forest
import TestMigration.Expr.Printer
import TestMigration.Diagnostic

/-!
# Applying edits

The text of a forest is the source between its roots with the text of each root in place. The edits
below an expression appear only where the expression embeds the span they lie in; an edit that appears
is *emitted*, and `Applied.counts` counts the emitted edits of each rule.
-/

namespace TestMigration

/-! ### Counting by name -/

/-- A number for each name, ordered by name. -/
abbrev Counts := List (String × Nat)

namespace Counts

def increment (name : String) : Counts → Counts
  | [] => [(name, 1)]
  | (other, n) :: rest =>
    if name == other then (other, n + 1) :: rest
    else if name < other then (name, 1) :: (other, n) :: rest
    else (other, n) :: increment name rest

/-- How often each name occurs. -/
def ofNames (names : List String) : Counts := names.foldl (fun c n => increment n c) []

def total (c : Counts) : Nat := c.foldr (fun entry sum => entry.2 + sum) 0

end Counts

/-! ### Splicing -/

/-- Which of the spans, in the order of positions, can be spliced into `limit` from offset `pos` on:
those inside it that do not begin before the end of the one spliced last. -/
def spliceable (limit : Span) : Nat → List Span → List Bool
  | _, [] => []
  | pos, s :: rest =>
    if limit.contains s && pos ≤ s.start then true :: spliceable limit s.stop rest
    else false :: spliceable limit pos rest

/-- The source of `limit` from `pos` on, with the marked pieces in place of their spans. -/
def spliceMarked (source : Text) (limit : Span) : Nat → List (Bool × Span × String) → String
  | pos, [] => source.cut ⟨pos, limit.stop⟩
  | pos, (marked, s, text) :: rest =>
    if marked then source.cut ⟨pos, s.start⟩ ++ text ++ spliceMarked source limit s.stop rest
    else spliceMarked source limit pos rest

/-- The source of `limit` with the pieces that lie in it in place of their spans. -/
def splice (source : Text) (pieces : List (Span × String)) (limit : Span) : String :=
  spliceMarked source limit limit.start
    ((spliceable limit limit.start (pieces.map (·.1))).zip pieces)

namespace EditTree

/-! ### Text of a tree -/

section
variable (source : Text) (style : Style)

mutual

/-- The text that takes the place of the tree's span. -/
def render : EditTree → String
  | node e children =>
    match e.replacement with
    | .delete => ""
    | .text s => s
    | .expr ex =>
      ex.print style (splice source (renderAll children)) (source.lineIndent e.span.start)

def renderAll : List EditTree → List (Span × String)
  | [] => []
  | t :: rest => (t.edit.span, t.render) :: renderAll rest

end

end

/-! ### Emitted edits -/

/-- Which of the trees appear when the given spans of the source are copied. -/
def shown (limits : List Span) (spans : List Span) : List Bool :=
  limits.foldl (fun mask limit => (mask.zip (spliceable limit limit.start spans)).map
    (fun p => p.1 || p.2)) (spans.map fun _ => false)

/-- The lists whose mark is set, one after the other. -/
def marked {α : Type} : List Bool → List (List α) → List α
  | true :: marks, xs :: rest => xs ++ marked marks rest
  | false :: marks, _ :: rest => marked marks rest
  | _, _ => []

/-- The top edits of the trees' spans. -/
def spans (ts : List EditTree) : List Span := ts.map (·.edit.span)

mutual

/-- The edit at the top and those below it that appear in its text. -/
def emitted : EditTree → List Edit
  | node e children =>
    match e.replacement with
    | .expr ex => e :: marked (shown ex.sources (spans children)) (emittedAll children)
    | _ => [e]

def emittedAll : List EditTree → List (List Edit)
  | [] => []
  | t :: rest => t.emitted :: emittedAll rest

end

end EditTree

/-! ### Deletions side by side -/

/-- A numbered edit put into a list ordered by start, in front of its equals. -/
def insertByStart (p : Edit × Nat) : List (Edit × Nat) → List (Edit × Nat)
  | [] => [p]
  | q :: rest =>
    if p.1.span.start ≤ q.1.span.start then p :: q :: rest else q :: insertByStart p rest

/-- Positions of the deletions in the list of edits, by where they start. -/
def deletionOrder (edits : List Edit) : List Nat :=
  ((edits.zipIdx.filter (·.1.isDelete)).foldr insertByStart []).map (·.2)

/-- Span that the deletion `previous` keeps when the blanks it shares with the deletion `next` go to
the latter; `none` when they share more than blanks or nothing. When both end a line behind other
code, the blanks in front of the first one go as well, unless some edit reaches into them. -/
def yieldBlanks (source : Text) (edits : List Edit) (previous next : Span) : Option Span :=
  let shared := previous.start < next.start && next.start < previous.stop
    && previous.stop < next.stop && Text.isBlank (source.slice next.start previous.stop)
  if !shared then none
  else
    let head := Text.dropBackWhile isMargin (source.takeBytes previous.start)
    let kept := Text.size head
    let free := !edits.any fun e => e.span.start < previous.start && kept < e.span.stop
    let midLine := 0 < kept && !Text.endsWith head "\n"
    let start :=
      if Text.atLineEnd (source.dropBytes next.stop) && midLine && free then kept
      else previous.start
    some ⟨start, next.start⟩

/-- Let each deletion in the list of positions give up the blanks that the next one claims too. -/
def separateDeletions (source : Text) : List Nat → List Edit → List Edit
  | i :: j :: rest, edits =>
    let edits :=
      match edits[i]?, edits[j]? with
      | some p, some n =>
        match yieldBlanks source edits p.span n.span with
        | some span => edits.set i { p with span }
        | none => edits
      | _, _ => edits
    separateDeletions source (j :: rest) edits
  | _, edits => edits

/-- Deletions of neighbouring statements, made disjoint where only blanks were shared. -/
def separateBlanks (source : Text) (edits : List Edit) : List Edit :=
  separateDeletions source (deletionOrder edits) edits

/-! ### The whole file -/

/-- What applying edits gives. -/
structure Applied where
  output : String
  /-- Number of emitted edits of each rule. -/
  counts : Counts
  diagnostics : List Diagnostic
deriving Repr, Inhabited

def overlapWarning (source : Text) (dropped kept : Edit) : Diagnostic :=
  .warning ("rewrite '" ++ dropped.rule ++ "' overlaps rewrite '" ++ kept.rule
    ++ "'; left unchanged") (source.locationAt dropped.span.start)

/-- Apply all edits, in whatever order they were found. -/
def applyEdits (source : Text) (style : Style) (edits : List Edit) : Applied :=
  let (roots, dropped) := nest (separateBlanks source edits)
  let whole : Span := ⟨0, source.size⟩
  let emitted := EditTree.marked (EditTree.shown [whole] (EditTree.spans roots))
    (EditTree.emittedAll roots)
  { output := splice source (EditTree.renderAll source style roots) whole
    counts := Counts.ofNames (emitted.map (·.rule))
    diagnostics := dropped.map fun (d, k) => overlapWarning source d k }

end TestMigration
