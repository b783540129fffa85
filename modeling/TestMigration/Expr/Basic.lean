import TestMigration.Text.Basic

/-!
# Synthesised code

A small language of expressions and statements in which the rules state their result. Pieces of the
file stand in it as spans (`Expr.source`), so an edit inside such a piece still takes effect.
`Expr.precedence` says how tightly an expression binds, and `Expr.sources` lists the spans it embeds.
-/

namespace TestMigration

mutual

/-- A synthesised expression. -/
inductive Expr where
  /-- A piece of the file, with the precedence it was found to have. -/
  | source (span : Span) (prec : Nat)
  /-- An identifier or dotted path. -/
  | ident (name : String)
  /-- A string literal; the content is kept as it stands between the quotes. -/
  | str (content : String)
  /-- A literal token such as `0`, `true` or `undefined`. -/
  | lit (token : String)
  | member (object : Expr) (property : String)
  | optionalMember (object : Expr) (property : String)
  | index (object index : Expr)
  | optionalIndex (object index : Expr)
  | call (callee : Expr) (args : List Expr)
  | new (callee : Expr) (args : List Expr)
  /-- A prefix operator, written with its spacing. -/
  | unary (op : String) (operand : Expr)
  | binary (left : Expr) (op : String) (right : Expr)
  | arrow (params : List String) (body : Expr)
  | arrowBlock (params : List String) (body : List Stmt)
  | object (fields : List Property)
  | array (items : List Expr)

/-- A synthesised statement. -/
inductive Stmt where
  | ifThen (condition : Expr) (body : List Stmt)
  | returnNothing
  | return (value : Expr)
  | throw (value : Expr)
  | expr (value : Expr)

/-- A field of an object literal. -/
inductive Property where
  | mk (key : String) (value : Expr)

end

instance : Inhabited Expr := ⟨.lit "undefined"⟩
instance : Inhabited Stmt := ⟨.returnNothing⟩

/-- Letters of ASCII, underscore and dollar: what may begin a name after a dot. -/
def isNameStart (c : Char) : Bool := c.isAlpha || c == '_' || c == '$'

/-- What may go on a name after a dot. -/
def isNamePart (c : Char) : Bool := c.isAlphanum || c == '_' || c == '$'

/-- The text can be written after a dot. -/
def isIdentifier (name : String) : Bool :=
  match name.toList with
  | [] => false
  | c :: cs => isNameStart c && cs.all isNamePart

/-! ### Precedence -/

/-- How tightly a binary operator binds. -/
def binaryPrecedence (op : String) : Nat :=
  if ["??", "||"].contains op then 4
  else if op == "&&" then 5
  else if op == "|" then 6
  else if op == "^" then 7
  else if op == "&" then 8
  else if ["==", "!=", "===", "!=="].contains op then 9
  else if ["<", ">", "<=", ">=", "instanceof", "in"].contains op then 10
  else if ["<<", ">>", ">>>"].contains op then 11
  else if ["+", "-"].contains op then 12
  else if ["*", "/", "%"].contains op then 13
  else if op == "**" then 14
  else 3

namespace Precedence

/-- Identifiers, literals and everything in brackets. -/
def primary : Nat := 20

/-- Member accesses and calls. -/
def member : Nat := 19

/-- Prefix operators. -/
def unary : Nat := 15

/-- The least that may stand as an argument. -/
def assignment : Nat := 2

end Precedence

namespace Expr

/-- How tightly an expression binds. -/
def precedence : Expr → Nat
  | source _ prec => prec
  | ident _ | str _ | lit _ | object _ | array _ => Precedence.primary
  | member _ _ | optionalMember _ _ | index _ _ | optionalIndex _ _ | call _ _ | new _ _ =>
    Precedence.member
  | unary _ _ => Precedence.unary
  | binary _ op _ => binaryPrecedence op
  | arrow _ _ | arrowBlock _ _ => Precedence.assignment

/-! ### Building -/

def callPath (path : String) (args : List Expr) : Expr := call (ident path) args

def method (e : Expr) (name : String) (args : List Expr) : Expr := call (member e name) args

/-- `e.name`, or `e['name']` when `name` is no identifier. -/
def property (e : Expr) (name : String) : Expr :=
  if isIdentifier name then member e name else index e (str name)

/-- `e?.name`, or `e?.['name']` when `name` is no identifier. -/
def optionalProperty (e : Expr) (name : String) : Expr :=
  if isIdentifier name then optionalMember e name else optionalIndex e (str name)

end Expr

/-! ### Embedded spans -/

mutual

/-- The spans of the file that an expression embeds, in the order in which they are printed. -/
def Expr.sources : Expr → List Span
  | .source span _ => [span]
  | .ident _ | .str _ | .lit _ => []
  | .member e _ | .optionalMember e _ | .unary _ e | .arrow _ e => e.sources
  | .index e i | .optionalIndex e i => e.sources ++ i.sources
  | .call e args | .new e args => e.sources ++ Expr.sourcesAll args
  | .binary l _ r => l.sources ++ r.sources
  | .arrowBlock _ body => Stmt.sourcesAll body
  | .object fields => Property.sourcesAll fields
  | .array items => Expr.sourcesAll items

def Expr.sourcesAll : List Expr → List Span
  | [] => []
  | e :: rest => e.sources ++ Expr.sourcesAll rest

def Stmt.sources : Stmt → List Span
  | .ifThen condition body => condition.sources ++ Stmt.sourcesAll body
  | .returnNothing => []
  | .return value | .throw value | .expr value => value.sources

def Stmt.sourcesAll : List Stmt → List Span
  | [] => []
  | s :: rest => s.sources ++ Stmt.sourcesAll rest

def Property.sources : Property → List Span
  | .mk _ value => value.sources

def Property.sourcesAll : List Property → List Span
  | [] => []
  | p :: rest => p.sources ++ Property.sourcesAll rest

end

end TestMigration
