import TestMigration.Registration.Callee

/-!
# Scopes of stubs

Configurations of a stub belong together when they concern the same member of the same object inside
the same test or suite. Hooks have no name of their own and pass on to the suite around them.
-/

namespace TestMigration

/-- The title of the test or suite that a site registers, if it does so with a literal title. -/
def Site.title? (s : Site) (source : Text) : Option String := do
  let callee ← s.registration? source
  guard (callee.registers != .hook)
  let first ← s.callArguments.head?
  first.stringValue? source

/-- The nearest of the nodes that registers a named test or suite, with its title. -/
def enclosingGo (source : Text) : List Node → Option (Site × String)
  | [] => none
  | p :: rest =>
    match Site.title? ⟨p, rest⟩ source with
    | some title => some (⟨p, rest⟩, title)
    | none => enclosingGo source rest

/-- The nearest named test or suite around a site, with its title. -/
def Site.enclosing? (s : Site) (source : Text) : Option (Site × String) := enclosingGo source s.above

/-- What the configurations of one stub have in common. -/
structure ScopeKey where
  /-- Text of the mocked object, or name of the stub's variable. -/
  subject : String
  /-- Name of the mocked member; empty for stubs without one. -/
  member : String
  /-- Title of the test or suite around; empty outside of all. -/
  testName : String
  /-- Where the registration of that test or suite starts; zero outside of all. -/
  anchor : Nat
deriving DecidableEq, Repr, Inhabited

namespace ScopeKey

def text (k : ScopeKey) : String :=
  (if k.member.isEmpty then k.subject else k.subject ++ "." ++ k.member)
    ++ (if k.testName.isEmpty then " (module scope)" else " in '" ++ k.testName ++ "'")

end ScopeKey

def Site.scopeKey (s : Site) (subject member : String) (source : Text) : ScopeKey :=
  match s.enclosing? source with
  | some (call, title) => ⟨subject, member, title, call.span.start⟩
  | none => ⟨subject, member, "", 0⟩

/-- The span of the test or suite around a site; the whole file outside of all. -/
def Site.scopeSpan (s : Site) (source : Text) : Span :=
  match s.enclosing? source with
  | some (call, _) => call.span
  | none => ⟨0, source.size⟩

end TestMigration
