import TestMigration.Tree.Site

/-!
# Questions about nodes

The value of a string, the arguments of a call, what parentheses enclose, and the parts of a function
literal.
-/

namespace TestMigration

/-! ### Parentheses -/

mutual

/-- The node that any number of parentheses around it enclose. -/
def Node.coreBelow (above : List Node) : Node → Site
  | .mk r k s cs =>
    match k with
    | .parenthesized => (Node.coreAmong (.mk r k s cs :: above) cs).getD ⟨.mk r k s cs, above⟩
    | _ => ⟨.mk r k s cs, above⟩

/-- What the first sibling that is no comment encloses. -/
def Node.coreAmong (above : List Node) : List Node → Option Site
  | [] => none
  | n :: rest => if n.isComment then Node.coreAmong above rest else some (n.coreBelow above)

end

namespace Site

/-- The site without the parentheses around it. -/
def core (s : Site) : Site := s.node.coreBelow s.above

/-! ### Strings and calls -/

/-- What stands between the quotes of a string or of a template without substitutions. -/
def stringValue? (s : Site) (source : Text) : Option String :=
  let content : Option String :=
    match source.slice s.span.start s.span.stop with
    | _ :: c :: rest => some (String.ofList (c :: rest).dropLast)
    | _ => none
  match s.kind with
  | .string => content
  | .template => if s.node.children.any (·.kind == .substitution) then none else content
  | _ => none

/-- The arguments of a call; none for a template behind its tag. -/
def callArguments (s : Site) : List Site :=
  match s.child? .arguments with
  | some args => if args.kind == .arguments then args.parts else []
  | none => []

/-! ### Functions -/

def isFunctionLiteral (s : Site) : Bool :=
  s.kind == .arrowFunction || s.kind == .functionExpression

def functionParameters (s : Site) : List Site :=
  match s.child? .parameter with
  | some single => [single]
  | none =>
    match s.child? .parameters with
    | some ps => ps.parts
    | none => []

/-- The name that a parameter binds, if it is no pattern. -/
def parameterName? (s : Site) (source : Text) : Option String :=
  match s.kind with
  | .identifier => some (s.text source)
  | .requiredParameter | .optionalParameter =>
    match s.child? .pattern with
    | some p => if p.kind == .identifier then some (p.text source) else none
    | none => none
  | _ => none

/-- The statements of a function with a block. -/
def bodyStatements (s : Site) : List Site :=
  match s.child? .body with
  | some b => if b.kind == .block then b.parts else []
  | none => []

/-! ### Declarations -/

def declarators (s : Site) : List Site := s.children.filter (·.kind == .variableDeclarator)

end Site

end TestMigration
