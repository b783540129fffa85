import TestMigration.Tree.Query

/-!
# Chains

`value.should.not.equal(5)` is a chain: a subject and the steps behind it, each a property access or a
method call. `Chain.walk` goes down from the end of a chain to its subject, one `Step.last?` at a time;
`Site.outermost` climbs from any part of a chain to its end.
-/

namespace TestMigration

/-- A link of a chain. -/
structure Step where
  name : String
  /-- The arguments of a call; none for a property access. -/
  arguments? : Option (List Site)
  /-- The member or the call that the step ends with. -/
  site : Site
deriving Repr, Inhabited

namespace Step

def isCall (s : Step) : Bool := s.arguments?.isSome

/-- The arguments of the step; none for a property access. -/
def args (s : Step) : List Site := s.arguments?.getD []

/-- The last step of the chain that ends at a site, and the site it goes on from. -/
def last? (source : Text) (s : Site) : Option (Step × Site) :=
  match s.kind with
  | .call => do
    let callee ← s.child? .callee
    guard (callee.kind == .member)
    let property ← callee.child? .property
    let object ← callee.child? .object
    let args ← s.child? .arguments
    guard (args.kind == .arguments)
    return ({ name := property.text source, arguments? := some args.parts, site := s }, object)
  | .member => do
    let property ← s.child? .property
    let object ← s.child? .object
    return ({ name := property.text source, arguments? := none, site := s }, object)
  | _ => none

end Step

/-- A subject with the steps behind it, in the order of the file. -/
structure Chain where
  steps : List Step
  /-- The innermost site, which is no step itself. -/
  subject : Site
  /-- The site that the chain was walked from. -/
  root : Site
deriving Repr, Inhabited

mutual

/-- Number of nodes on the longest way down. -/
def Node.height : Node → Nat
  | .mk _ _ _ cs => Node.heightOfAll cs + 1

def Node.heightOfAll : List Node → Nat
  | [] => 0
  | n :: rest => max n.height (Node.heightOfAll rest)

end

namespace Chain

/-- Subject and steps of the chain that ends at a site, in front of later steps. The number bounds the
steps. -/
def walkGo (source : Text) : Nat → Site → List Step → List Step × Site
  | 0, s, later => (later, s)
  | n + 1, s, later =>
    match Step.last? source s with
    | some (step, inner) => walkGo source n inner (step :: later)
    | none => (later, s)

/-- The chain that ends at a site. -/
def walk (source : Text) (root : Site) : Chain :=
  let (steps, subject) := walkGo source root.node.height root []
  { steps, subject, root }

def subjectIs (c : Chain) (name : String) (source : Text) : Bool :=
  c.subject.kind == .identifier && c.subject.text source == name

def names (c : Chain) : List String := c.steps.map (·.name)

end Chain

/-- `parent` goes on the chain that its child `child` belongs to. -/
def Node.extendsChain (parent child : Node) : Bool :=
  match parent.kind with
  | .member => child.role == .object
  | .call => child.kind == .member && child.role == .callee
  | _ => false

namespace Site

/-- The last node, from `n` upwards, to which each step on the way goes on the chain. -/
def outermostGo (n : Node) : List Node → Site
  | [] => ⟨n, []⟩
  | p :: rest => if p.extendsChain n then outermostGo p rest else ⟨n, p :: rest⟩

/-- The end of the chain that the site belongs to. -/
def outermost (s : Site) : Site := outermostGo s.node s.above

/-- Nothing above goes on the site's chain. -/
def isChainRoot (s : Site) : Bool :=
  match s.above with
  | [] => true
  | p :: _ => !p.extendsChain s.node

/-- Calls and members at which a chain ends. -/
def isCandidate (s : Site) : Bool :=
  (s.kind == .call || s.kind == .member) && s.isChainRoot

end Site

namespace Chain

/-- The whole chain that a site belongs to. -/
def walkFrom (source : Text) (s : Site) : Chain := walk source s.outermost

end Chain

end TestMigration
