import TestMigration.Tree.Query

/-!
# Registration calls

Calls that register a test, a suite or a hook, by the names that the legacy runner gives them, with
the modifiers `only`, `skip` and `todo`.
-/

namespace TestMigration

/-- What a registration call registers. -/
inductive Registration where
  | testCase
  | suite
  | hook
deriving DecidableEq, Repr, Inhabited

namespace Registration

def testCaseNames : List String := ["it", "test", "specify", "xit", "xspecify", "xtest"]

def suiteNames : List String := ["describe", "context", "suite", "xdescribe", "xcontext"]

def hookNames : List String := ["before", "after", "beforeEach", "afterEach"]

def ofName? (name : String) : Option Registration :=
  if testCaseNames.contains name then some testCase
  else if suiteNames.contains name then some suite
  else if hookNames.contains name then some hook
  else none

/-- The callee of a registration call. -/
structure Callee where
  base : String
  modifier : Option String
  registers : Registration
deriving DecidableEq, Repr, Inhabited

/-- The callee with this base and modifier, if the base registers something. -/
def callee? (base : String) (modifier : Option String) : Option Callee :=
  (ofName? base).map fun registers => { base, modifier, registers }

end Registration

/-- The callee of a call that registers something. -/
def Site.registration? (s : Site) (source : Text) : Option Registration.Callee := do
  guard (s.kind == .call)
  let f ← s.child? .callee
  match f.kind with
  | .identifier => Registration.callee? (f.text source) none
  | .member =>
    let object ← f.child? .object
    let property ← f.child? .property
    guard (object.kind == .identifier)
    let modifier := property.text source
    guard (["only", "skip", "todo"].contains modifier)
    Registration.callee? (object.text source) (some modifier)
  | _ => none

end TestMigration
