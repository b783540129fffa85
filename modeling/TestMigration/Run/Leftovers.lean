import TestMigration.Chain
import TestMigration.Import.Reference

/-!
# Leftovers

Legacy code that no edit covers: accesses of `should` and uses of legacy names, one for each chain.
-/

namespace TestMigration

/-- A legacy construct that is kept. -/
structure Leftover where
  span : Span
  excerpt : String
  /-- The construct accesses `should`. -/
  accessesShould : Bool
deriving DecidableEq, Repr, Inhabited

/-- The first line of a text, shortened to sixty characters and marked when something is left out. -/
def excerpt (text : Text) : String :=
  let line := text.lines.headD []
  if line.length > 60 then String.ofList (line.take 57) ++ "..."
  else if Text.size line < Text.size text then String.ofList line ++ "..."
  else String.ofList line

namespace Site

/-- The site accesses the property `should`. -/
def accessesShould (s : Site) (source : Text) : Bool :=
  s.kind == .member && ((s.child? .property).map (·.text source)) == some "should"

/-- The end of the chain that the site begins; a callee begins the chain of its call. -/
def chainTop (s : Site) : Site :=
  match s.parentOf? .call with
  | some call => if s.role == .callee then call.outermost else s.outermost
  | none => s.outermost

end Site

/-- The leftovers with what one more site leaves. -/
def addLeftover (source : Text) (legacy : List String) (excluded : List Span) (edits : List Edit)
    (found : List Leftover) (s : Site) : List Leftover :=
  let should := s.accessesShould source
  if !should && !(s.isReference && legacy.contains (s.text source)) then found
  else if isGone excluded edits s.span then found
  else
    let top := s.chainTop
    if found.any (·.span == top.span) then found
    else
      let span := top.span
      found ++ [{ span, excerpt := excerpt (source.slice span.start span.stop)
                  accessesShould := should }]

/-- The legacy constructs of a tree outside of the excluded spans and of all edits. -/
def leftovers (source : Text) (tree : Node) (legacy : List String) (excluded : List Span)
    (edits : List Edit) : List Leftover :=
  tree.sites.foldl (addLeftover source legacy excluded edits) []

end TestMigration
