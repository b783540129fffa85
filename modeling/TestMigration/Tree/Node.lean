import TestMigration.Text.Lines

/-!
# Syntax trees

A node has a kind, a span of the file, the role it plays in its parent and its children in the order
of the file. The tree keeps what the rules look at: punctuation is left out, and constructs that no
rule inspects share the kinds `statement`, `expression`, `type` and `clause`.
-/

namespace TestMigration

/-- What a node stands for. -/
inductive Kind where
  | program
  | hashBang
  | comment
  -- statements and their parts
  | expressionStatement
  | lexicalDeclaration
  | variableDeclaration
  | variableDeclarator
  | functionDeclaration
  | generatorDeclaration
  | classDeclaration
  | importStatement
  | importClause
  | namespaceImport
  | namedImports
  | importSpecifier
  | exportStatement
  | returnStatement
  | block
  | switchCase
  | statement
  -- expressions
  | identifier
  | undefined
  | thisKeyword
  | superKeyword
  | number
  | string
  | template
  | substitution
  | regex
  | trueLiteral
  | falseLiteral
  | nullLiteral
  | array
  | object
  | parenthesized
  | member
  | subscript
  | call
  | construction
  | unary
  | await
  | update
  | binary (op : String)
  | ternary
  | sequence
  | assignment
  | asType
  | satisfiesType
  | nonNull
  | arrowFunction
  | functionExpression
  | generatorExpression
  | expression
  -- parts of expressions and declarations
  | arguments
  | propertyName
  | privateName
  | shorthand
  | shorthandPattern
  | objectPattern
  | pairPattern
  | method
  | parameters
  | requiredParameter
  | optionalParameter
  | type
  | clause
deriving DecidableEq, Repr, Inhabited

/-- The part a node plays in its parent. -/
inductive Role where
  | part
  | callee
  | arguments
  | object
  | property
  | parameter
  | parameters
  | pattern
  | body
  | name
  | value
  | left
  | right
  | source
  | rename
  | key
  | argument
deriving DecidableEq, Repr, Inhabited

/-- A node of the syntax tree. -/
inductive Node where
  | mk (role : Role) (kind : Kind) (span : Span) (children : List Node)
deriving Repr, Inhabited

namespace Node

def role : Node → Role
  | mk r _ _ _ => r

def kind : Node → Kind
  | mk _ k _ _ => k

def span : Node → Span
  | mk _ _ s _ => s

def children : Node → List Node
  | mk _ _ _ cs => cs

/-- The node in another role. -/
def playing (r : Role) : Node → Node
  | mk _ k s cs => mk r k s cs

def start (n : Node) : Nat := n.span.start

def stop (n : Node) : Nat := n.span.stop

def isComment (n : Node) : Bool := n.kind == .comment

/-- The first child that plays the role. -/
def child? (n : Node) (r : Role) : Option Node := n.children.find? (·.role == r)

/-- The children that are no comments. -/
def parts (n : Node) : List Node := n.children.filter (!·.isComment)

def text (n : Node) (source : Text) : String := source.cut n.span

def location (n : Node) (source : Text) : Location := source.locationOf n.span

/-! ### Comments -/

mutual

/-- The tree with a comment put into the innermost node that reaches over it. -/
def insertComment (c : Node) : Node → Node
  | mk r k s cs => mk r k s (insertAmong c cs)

/-- A comment put into a list of siblings, or into the one that reaches over it. -/
def insertAmong (c : Node) : List Node → List Node
  | [] => [c]
  | n :: rest =>
    if n.start < c.start && c.stop ≤ n.stop then insertComment c n :: rest
    else if c.start < n.start then c :: n :: rest
    else n :: insertAmong c rest

end

end Node

end TestMigration
