import TestMigration.Grammar.Pattern

/-!
# Expressions

Operands with their members and calls, prefix and postfix operators, assignments, binary operators by
how tightly they bind, and the conditional operator.
-/

namespace TestMigration

namespace Grammar

open Scanner

section
variable (g : Rules)

/-! ### Functions and classes -/

/-- The mark of an asynchronous function in front of `next`. -/
def asyncBefore {α : Type} (next : Scanner α) : Scanner Unit := do
  keyword "async"
  ahead next

def functionExpression : Scanner Node := do
  let start ← nextStart
  let _ ← optional (asyncBefore (keyword "function"))
  keyword "function"
  let star ← optional (op "*")
  let n ← optional name
  let sig ← signature g
  let b ← g .block
  close (if star.isSome then .generatorExpression else .functionExpression) start
    ((n.map (·.playing .name)).toList ++ sig ++ [b.playing .body])

def arrowFunction : Scanner Node := node .arrowFunction do
  let _ ← optional (asyncBefore (op "(" <|> op "<" <|> do let _ ← anyWord))
  let params ← single <|> signature g
  op "=>"
  let b ← if (← peekChar) == some '\x7b' then g .block else g .expression
  return params ++ [b.playing .body]
where
  single : Scanner (List Node) := do
    let p ← expressionName
    ahead (op "=>")
    return [p.playing .parameter]

/-- What a class extends and implements. -/
def heritage : Scanner (List Node) := do
  let e ← optional (do
    keyword "extends"
    node .clause do
      let es ← sepBy1 (op ",") (do
        let e ← g .chained
        let ts ← optional (g .typeArguments)
        return e :: ts.toList)
      return es.flatten)
  let i ← optional (do
    keyword "implements"
    node .clause (sepBy1 (op ",") (g .type)))
  return e.toList ++ i.toList

/-- What follows the keyword of a class: its name, parameters, heritage and body. -/
def classRest (named : Bool) : Scanner (List Node) := do
  let n ← if named then some <$> className else optional className
  let ts ← optional (g .typeParameters)
  let h ← heritage g
  let b ← g .classBody
  return (n.map (·.playing .name)).toList ++ ts.toList ++ h ++ [b.playing .body]
where
  className : Scanner Node := do
    let (w, span) ← anyWord
    guard (w != "extends" && w != "implements")
    return .mk .part .type span []

def classExpression : Scanner Node := node .expression do
  let ds ← many (decorator g)
  keyword "class"
  return ds ++ (← classRest g false)

/-! ### Object and array literals -/

def objectMethod : Scanner Node := node .method do
  let _ ← many (modifier ["static", "readonly", "override", "async"])
  let _ ← optional (modifier ["get", "set"])
  let _ ← optional (op "*")
  let n ← propertyName g
  let _ ← optional (op "?")
  let sig ← signature g
  let b ← g .block
  return [n.playing .name] ++ sig ++ [b.playing .body]

def objectMember : Scanner Node :=
  spread g
  <|> (node .clause do
    let k ← propertyName g
    op ":"
    let v ← g .expression
    return [k.playing .key, v.playing .value])
  <|> objectMethod g
  <|> leaf .shorthand Lexeme.word

def objectLiteral : Scanner Node :=
  node .object (between "\x7b" "\x7d" (commaSeparated (objectMember g)))

def arrayLiteral : Scanner Node :=
  node .array (between "[" "]" (commaSeparated (spread g <|> g .expression)))

/-- An assignment to the parts of a pattern. -/
def patternAssignment : Scanner Node := node .assignment do
  let l ← g .pattern
  op "="
  let r ← g .expression
  return [l.playing .left, r.playing .right]

/-- A literal that is not the target of an assignment, or else such an assignment. -/
def literalOrTarget (literal : Scanner Node) : Scanner Node :=
  (do
    let e ← literal
    notAhead (op "=")
    return e)
  <|> patternAssignment g

/-! ### Operands -/

def parenthesized : Scanner Node := node .parenthesized do
  between "(" ")" do
    let e ← g .expressions
    let t ← optional (typeMark g)
    return e :: t.toList

def memberStep (e : Node) : Scanner Node :=
  (do
    op "." <|> op "?."
    let p ← memberName
    close .member e.start [e.playing .object, p.playing .property])
  <|> (do
    let _ ← optional (op "?.")
    let index ← between "[" "]" (g .expressions)
    close .subscript e.start [e.playing .object, index])
  <|> (do
    let t ← template g
    close .call e.start [e.playing .callee, t.playing .arguments])
  <|> (do
    op "!"
    close .nonNull e.start [e])

/-- `new` with what it constructs, or the target of the call. -/
def construction : Scanner Node :=
  (node .expression do
    keyword "new"
    op "."
    keyword "target"
    return [])
  <|> (node .construction do
    keyword "new"
    let head ← g .constructed
    let ts ← optional (do
      let ts ← g .typeArguments
      ahead (op "(")
      return ts)
    let args ← optional (g .arguments)
    return [head] ++ ts.toList ++ (args.map (·.playing .arguments)).toList)
  <|> keywordLeaf .identifier "new"

/-- `import` as the file's own data, as a callee or with a member. -/
def importExpression : Scanner Node :=
  (node .expression do
    keyword "import"
    op "."
    keyword "meta"
    return [])
  <|> (do
    let e ← keywordLeaf .expression "import"
    ahead (op "(" <|> op "." <|> op "?.")
    return e)

/-- An expression that begins with a word. -/
def wordExpression : Scanner Node := do
  match ← peekWord with
  | "" => failure
  | "function" => functionExpression g
  | "class" => classExpression g
  | "new" => construction g
  | "import" => importExpression
  | "this" => keywordLeaf .thisKeyword "this"
  | "super" => keywordLeaf .superKeyword "super"
  | "true" => keywordLeaf .trueLiteral "true"
  | "false" => keywordLeaf .falseLiteral "false"
  | "null" => keywordLeaf .nullLiteral "null"
  | "undefined" => keywordLeaf .undefined "undefined"
  | "async" =>
    (do ahead (asyncBefore (keyword "function")); functionExpression g)
      <|> arrowFunction g <|> expressionName
  | _ => (do ahead (expressionName *> op "=>"); arrowFunction g) <|> expressionName

/-- An operand without anything behind it. -/
def primary : Scanner Node := do
  let c ← peekChar
  match c with
  | none => failure
  | some '(' => arrowFunction g <|> parenthesized g
  | some '[' => literalOrTarget g (arrayLiteral g)
  | some '\x7b' => literalOrTarget g (objectLiteral g)
  | some '\x60' => template g
  | some '/' => leaf .regex Lexeme.regex
  | some '@' => classExpression g
  | some '#' => leaf .privateName Lexeme.privateWord
  | some '<' => arrowFunction g <|> (do guard (← get).markup; g .element)
  | some '"' => stringLiteral
  | some '\'' => stringLiteral
  | some c => if c.isDigit || c == '.' then numberLiteral else wordExpression g

/-- A member, a call or a mark behind an operand. -/
def postfixStep (e : Node) : Scanner Node := do
  goesOn true
  memberStep g e
    <|> (do
      let _ ← optional (op "?.")
      let args ← g .arguments
      close .call e.start [e.playing .callee, args.playing .arguments])
    <|> (do
      let _ ← optional (op "?.")
      let ts ← g .typeArguments
      let args ← g .arguments
      close .call e.start [e.playing .callee, ts, args.playing .arguments])
    <|> (do
      let ts ← g .typeArguments
      let t ← template g
      close .call e.start [e.playing .callee, ts, t.playing .arguments])
    <|> (do
      let ts ← g .typeArguments
      closes
      close .expression e.start [e, ts])
where
  /-- The next token ends an expression. -/
  closes : Scanner Unit := do
    match ← peekChar with
    | none => return ()
    | some c => guard (")],;:.?\x7d".toList.contains c) <|> goesOnNot
  goesOnNot : Scanner Unit := do
    let s ← get
    guard (s.endable && (s.statementEnd? true).isSome)

/-- An operand with its members and calls. -/
def chained : Scanner Node := do extend (postfixStep g) (← primary g)

/-- An operand with its members. -/
def constructed : Scanner Node := do extend (memberStep g) (← primary g)

/-! ### Assignments and prefix operators -/

/-- Kinds that can stand on the left of an assignment. -/
def isTarget : Kind → Bool
  | .member | .subscript | .identifier | .undefined | .parenthesized | .nonNull => true
  | _ => false

/-- Operators that combine an operation with an assignment. -/
def combinedOperators : List Text :=
  ["+=", "-=", "*=", "/=", "%=", "^=", "&=", "|=", ">>=", ">>>=", "<<=", "**=", "&&=", "||=",
    "??="].map String.toList

def assignTo (e : Node) : Scanner Node := do
  guard (isTarget e.kind)
  goesOn true
  (do
    op "="
    let r ← g .expression
    close .assignment e.start [e.playing .left, r.playing .right])
  <|> (do
    let (taken, _) ← lexeme Lexeme.operator
    guard (combinedOperators.contains taken)
    let r ← g .expression
    close .expression e.start [e.playing .left, r.playing .right])

/-- An increment or decrement behind an operand. -/
def updateAfter (e : Node) : Scanner Node := do
  goesOn true
  op "++" <|> op "--"
  close .update e.start [e.playing .argument]

/-- Prefix operators other than words. -/
def prefixOperators : List Text := ["!", "~", "-", "+"].map String.toList

/-- An operator before its operand. -/
def prefixed : Scanner Node := do
  let start ← nextStart
  let (taken, _) ← lexeme Lexeme.operator
  if prefixOperators.contains taken then
    let e ← g .operand
    close .unary start [e.playing .argument]
  else if taken == "++".toList || taken == "--".toList then
    let e ← g .operand
    close .update start [e.playing .argument]
  else failure

/-- A type in angle brackets before the value it is claimed for. -/
def typeAssertion : Scanner Node := node .expression do
  guard !(← get).markup
  let ts ← g .typeArguments
  return [ts, ← g .operand]

/-- A value handed out by a generator. -/
def yielded : Scanner Node := node .expression do
  keyword "yield"
  let star ← optional (op "*")
  let e ← if star.isSome then some <$> g .expression
    else optional (do goesOn false; g .expression)
  return e.toList

/-- A type claimed for what stands before it, with the members and calls behind the claim. -/
def typeClaim (e : Node) : Scanner Node := do
  goesOn true
  let w ← oneOf ["as", "satisfies"]
  let t ← keywordLeaf .type "const" <|> g .type
  let claim ← close (if w == "as" then .asType else .satisfiesType) e.start [e, t]
  extend (postfixStep g) claim

/-- An operand with its members, calls, operators before and behind it, or an assignment to it. A type
claimed behind an awaited value is claimed for the value before it is awaited. -/
def operand : Scanner Node := do
  match ← peekWord with
  | "typeof" | "void" | "delete" => node .unary do
      let _ ← anyWord
      return [(← g .operand).playing .argument]
  | "await" => node .await do
      keyword "await"
      return [← extend (typeClaim g) (← g .operand)]
  | "yield" => yielded g
  | _ => (do
      let e ← g .chained
      assignTo g e <|> updateAfter e <|> pure e) <|> prefixed g <|> typeAssertion g

/-! ### Binary operators -/

/-- How tightly the power operator binds. It binds to the right, and one more than any other operator
asks of its right operand. -/
def powerStrength : Nat := 13

/-- How tightly a binary operator binds among the others; none for other tokens. -/
def bindingStrength (op : String) : Option Nat :=
  if op == "??" then some 1
  else if op == "||" then some 2
  else if op == "&&" then some 3
  else if op == "|" then some 4
  else if op == "^" then some 5
  else if op == "&" then some 6
  else if ["==", "!=", "===", "!=="].contains op then some 7
  else if ["<", ">", "<=", ">=", "instanceof", "in"].contains op then some 8
  else if ["<<", ">>", ">>>"].contains op then some 9
  else if ["+", "-"].contains op then some 10
  else if ["*", "/", "%"].contains op then some 11
  else if op == "**" then some powerStrength
  else none

def binaryOperator : Scanner (String × Nat) := do
  let (taken, _) ← lexeme Lexeme.operator <|> lexeme Lexeme.word
  let text := String.ofList taken
  match bindingStrength text with
  | some n => return (text, n)
  | none => failure

/-- A binary operator and its right operand, or a type claimed for everything to the left. -/
def binaryStep (least : Nat) (l : Node) : Scanner Node := do
  goesOn true
  (do
    let (sign, n) ← binaryOperator
    guard (least ≤ n)
    let r ← g (.binary (if n == powerStrength then n else n + 1))
    close (.binary sign) l.start [l.playing .left, r.playing .right])
  <|> (do
    guard (least == 0 || least == powerStrength)
    typeClaim g l)

/-- An expression whose binary operators bind at least as tightly as `least`. -/
def binary (least : Nat) : Scanner Node := do extend (binaryStep g least) (← g .operand)

/-- A question mark that chooses between two values. -/
def questionMark : Scanner Unit := do
  op "?"
  match ← peekChar with
  | some c => guard (!":),".toList.contains c)
  | none => return ()

/-- The first of two values to choose from, with the colon behind it. If the colon was taken for the
result of an arrow function, it is read again without such results. -/
def firstChoice : Scanner Node :=
  (do
    let e ← g .expression
    op ":"
    return e)
  <|> (do
    modify fun s => { s with bareArrows := true }
    let e ← g .expression
    op ":"
    modify fun s => { s with bareArrows := false }
    return e)

def expression : Scanner Node := do
  let c ← g (.binary 0)
  (do
    goesOn true
    questionMark
    let yes ← firstChoice g
    let no ← g .expression
    close .ternary c.start [c, yes, no])
  <|> pure c

def expressions : Scanner Node := do
  let first ← g .expression
  let rest ← many (do op ","; g .expression)
  if rest.isEmpty then return first else close .sequence first.start (first :: rest)

end

end Grammar

end TestMigration
