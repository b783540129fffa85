import TestMigration.Edit.Basic
import TestMigration.Tree.Site

/-!
# References

A name is still referenced when some identifier with that text stands outside of given spans and of
every edit.
-/

namespace TestMigration

/-- The site is a use of a name: an identifier or the short form of a field. -/
def Site.isReference (s : Site) : Bool := s.kind == .identifier || s.kind == .shorthand

/-- The span lies in one of the excluded ones or under an edit. -/
def isGone (excluded : List Span) (edits : List Edit) (span : Span) : Bool :=
  excluded.any (·.contains span) || Edit.covers edits span

/-- Some use of `name` is neither excluded nor under an edit. -/
def isStillReferenced (source : Text) (tree : Node) (name : String) (excluded : List Span)
    (edits : List Edit) : Bool :=
  tree.sites.any fun s =>
    s.isReference && s.text source == name && !isGone excluded edits s.span

end TestMigration
