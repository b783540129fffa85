import TestMigration.Chain
import TestMigration.Import.Target

/-!
# Names of mocks

Before the chains of a file are looked at, the variables that hold sandboxes, stubs and spies are
collected over the whole file, and the members that are replaced by a stub or a spy.
-/

namespace TestMigration

/-- What a variable that holds a stub or spy stands for. -/
inductive MockBinding where
  /-- A member of an object that was replaced. -/
  | method (object member : String)
  /-- A function of its own. -/
  | anonymous
deriving DecidableEq, Repr, Inhabited

/-- The mocks that a file names. -/
structure MockBindings where
  /-- Variables that hold sandboxes. -/
  sandboxes : List String := []
  /-- Variables that hold stubs and spies, each name once. -/
  stubs : List (String × MockBinding) := []
  /-- Texts of the replaced members, object and name joined by a point. -/
  stubbedMembers : List String := []
deriving DecidableEq, Repr, Inhabited

namespace MockBindings

def stub? (b : MockBindings) (name : String) : Option MockBinding := b.stubs.lookup name

def isStub (b : MockBindings) (name : String) : Bool := (b.stub? name).isSome

def isFactory (b : MockBindings) (names : Names) (name : String) : Bool :=
  name == names.sinon || b.sandboxes.contains name

def setStub (name : String) (binding : MockBinding) :
    List (String × MockBinding) → List (String × MockBinding)
  | [] => [(name, binding)]
  | (other, old) :: rest =>
    if other == name then (name, binding) :: rest else (other, old) :: setStub name binding rest

end MockBindings

/-- Names and mocks that rules look up, with the text of the file. -/
structure Context where
  source : Text
  names : Names
  mocks : MockBindings := {}
deriving Inhabited

namespace Context

def text (ctx : Context) (s : Site) : String := s.text ctx.source

end Context

/-! ### Collecting -/

/-- Steps that make a stub or spy. -/
def creationSteps : List String := ["stub", "spy", "fake"]

/-- The chain makes a sandbox. -/
def Chain.isSandboxCreation (c : Chain) (source : Text) (names : Names) : Bool :=
  c.subjectIs names.sinon source &&
    match c.steps.map fun s => (s.name, s.isCall) with
    | [("createSandbox", true)] => true
    | [("sandbox", false), ("create", true)] => true
    | _ => false

/-- The object and member that a step replaces. -/
def Step.methodTarget? (s : Step) (source : Text) : Option (Site × String) :=
  match s.args with
  | [object, name] => (name.stringValue? source).map fun member => (object, member)
  | _ => none

/-- The values of a file that may be mocks: each value given to a variable, with its name, and each
call. -/
def mockValues (tree : Node) : List (Option Site × Site) :=
  tree.sites.filterMap fun s =>
    let assigned (target given : Role) : Option (Option Site × Site) := do
      let name ← s.child? target
      let v ← s.child? given
      guard (name.kind == .identifier)
      return (some name, v.core)
    match s.kind with
    | .variableDeclarator => assigned .name .value
    | .assignment => assigned .left .right
    | .call => some (none, s)
    | _ => none

/-- The variables among the values that hold sandboxes. -/
def sandboxNames (source : Text) (names : Names) (values : List (Option Site × Site)) :
    List String :=
  values.filterMap fun (name, value) => do
    let name ← name
    guard ((Chain.walk source value).isSandboxCreation source names)
    return name.text source

/-- The bindings with what one value makes. -/
def MockBindings.addValue (source : Text) (names : Names) (b : MockBindings)
    (value : Option Site × Site) : MockBindings :=
  let chain := Chain.walk source value.2
  match chain.steps with
  | [] => b
  | first :: _ =>
    let factory := chain.subject.kind == .identifier
      && b.isFactory names (chain.subject.text source)
    if !factory || !creationSteps.contains first.name then b
    else
      let target := (first.methodTarget? source).map fun (object, member) =>
        (object.text source, member)
      let members := (target.map fun (object, member) => object ++ "." ++ member).toList
      let binding := (target.map fun (object, member) => MockBinding.method object member).getD
        .anonymous
      { b with
        stubbedMembers := b.stubbedMembers ++ members
        stubs :=
          match value.1 with
          | some name => MockBindings.setStub (name.text source) binding b.stubs
          | none => b.stubs }

/-- The mocks that a file names. Sandboxes come first, since stubs may come from them. -/
def MockBindings.ofTree (source : Text) (names : Names) (tree : Node) : MockBindings :=
  let values := mockValues tree
  values.foldl (MockBindings.addValue source names)
    { sandboxes := sandboxNames source names values }

end TestMigration
