import TestMigration.Grammar.Rules

/-!
# Types

Type annotations, type arguments and parameters. Only what stands for a value matters later: the first
name of a dotted type, what `typeof` asks about, and literals.
-/

namespace TestMigration

namespace Grammar

open Scanner

section
variable (g : Rules)

def typeMark : Scanner Node := do
  mark ":"
  g .type

/-! ### Signatures -/

/-- What a function answers: a type, or what a test of its argument shows. -/
def answered : Scanner Node := assertion <|> predicate <|> g .type
where
  subject : Scanner Node := keywordLeaf .thisKeyword "this" <|> name
  predicate : Scanner Node := node .type do
    let x ← subject
    keyword "is"
    return [x, ← g .type]
  assertion : Scanner Node := node .type do
    keyword "asserts"
    let x ← subject
    let t ← optional (do keyword "is"; g .type)
    return x :: t.toList

def resultType : Scanner Node := do
  guard !(← get).bareArrows
  mark ":"
  answered g

def signature : Scanner (List Node) := do
  let ts ← optional (g .typeParameters)
  let ps ← g .parameters
  let r ← optional (resultType g)
  return ts.toList ++ [ps.playing .parameters] ++ r.toList

def typeParameters : Scanner Node := node .type do
  op "<"
  let ps ← ending false (commaSeparated1 (node .type parameter))
  mark ">"
  return ps
where
  parameter : Scanner (List Node) := do
    let _ ← many (do let _ ← oneOf ["const", "in", "out"]; ahead anyWord)
    let _ ← anyWord
    let bound ← optional (do keyword "extends"; g .type)
    let default ← optional (do op "="; g .type)
    return bound.toList ++ default.toList

/-- The arguments of a generic type or function. -/
def typeArguments : Scanner Node := node .type do
  op "<"
  let ts ← ending false (commaSeparated1 (g .type))
  mark ">"
  return ts

/-! ### Simple types -/

/-- What `typeof` asks about in a type: a name, its members and calls of `import`. -/
def typeQuery : Scanner Node := do
  let first ← imported <|> keywordLeaf .thisKeyword "this" <|> name
  extend (fun e => do goesOn false; step e) first
where
  imported : Scanner Node := do
    let f ← keywordLeaf .expression "import"
    let args ← g .arguments
    close .call f.start [f.playing .callee, args.playing .arguments]
  step (e : Node) : Scanner Node :=
    (do
      op "." <|> op "?."
      let p ← memberName
      close .member e.start [e.playing .object, p.playing .property])
    <|> (do
      op "["
      notAhead (op "]")
      let index ← stringLiteral <|> numberLiteral
      op "]"
      close .subscript e.start [e.playing .object, index])
    <|> (do
      let ts ← g .typeArguments
      close .expression e.start [e, ts])

/-- A type given by its name, with the modules it lies in and its arguments. -/
def namedType : Scanner Node := node .type do
  let (_, first) ← anyWord
  let rest ← many (op "." *> anyWord)
  let head : List Node := if rest.isEmpty then [] else [.mk .part .identifier first []]
  let ts ← optional (do goesOn false; g .typeArguments)
  return head ++ ts.toList

def tupleItem : Scanner Node := node .type do
  let _ ← optional (op "...")
  let _ ← optional (do
    let _ ← anyWord
    let _ ← optional (op "?")
    op ":")
  let t ← g .type
  let _ ← optional (op "?")
  return [t]

/-! ### Object types -/

/-- Signs that make a mapped type's members optional or read-only. -/
def mappedSign : Scanner Unit := do
  let _ ← optional (op "+" <|> op "-")
  op "?"

/-- An index signature or the member of a mapped type. -/
def indexSignature : Scanner Node := node .type do
  let _ ← optional (op "+" <|> op "-")
  let _ ← optional (modifier ["readonly"])
  op "["
  let inner ← ending false (mapped <|> index)
  op "]"
  let _ ← optional mappedSign
  let t ← optional (typeMark g)
  return inner ++ t.toList
where
  mapped : Scanner (List Node) := do
    let _ ← anyWord
    keyword "in"
    let t ← g .type
    let u ← optional (do keyword "as"; g .type)
    return t :: u.toList
  index : Scanner (List Node) := do
    let x ← name
    return [x, ← typeMark g]

def typeMember : Scanner Node :=
  indexSignature g
  <|> (node .type do
    let _ ← optional (keyword "new")
    signature g)
  <|> (node .type do
    let _ ← many (modifier ["public", "private", "protected", "static", "override", "readonly",
      "async", "get", "set"])
    let n ← propertyName g
    let _ ← optional (op "?" <|> op "!")
    let t ← optional (signature g <|> (do return [← typeMark g]))
    return n :: t.getD [])

def objectType : Scanner Node := node .type do
  op "\x7b"
  let _ ← optional (op "," <|> op ";")
  let ms ← ending true (many member)
  op "\x7d"
  return ms
where
  member : Scanner Node := do
    let m ← typeMember g
    op "," <|> semicolon false <|> ahead (op "\x7d")
    return m

/-- A type that needs no brackets. -/
def primaryType : Scanner Node := do
  let c ← peekChar
  match c with
  | some '(' => node .type do return [← between "(" ")" (g .type)]
  | some '\x7b' => objectType g
  | some '[' => node .type (between "[" "]" (commaSeparated (tupleItem g)))
  | some '\x60' => templateOf .type (g .type)
  | some '-' => node .type do op "-"; return [← numberLiteral]
  | some '*' => node .type do op "*"; return []
  | some '?' => node .type do op "?"; return [← g .type]
  | some c =>
    if c == '"' || c == '\'' then node .type do return [← stringLiteral]
    else if c.isDigit || c == '.' then node .type do return [← numberLiteral]
    else
      match ← peekWord with
      | "typeof" => node .type do keyword "typeof"; return [← typeQuery g]
      | "import" => node .type do return [← typeQuery g]
      | "" => failure
      | _ => namedType g
  | none => failure

/-! ### Compound types -/

def arrayType : Scanner Node := do
  let t ← primaryType g
  extend step t
where
  step (t : Node) : Scanner Node := do
    goesOn false
    op "["
    let index ← optional (ending false (g .type))
    op "]"
    close .type t.start (t :: index.toList)

/-- Operators on types; the number bounds how many of them stand in a row. -/
def typeOperator : Nat → Scanner Node
  | 0 => arrayType g
  | n + 1 =>
    (node .type do
      let _ ← oneOf ["keyof", "readonly", "unique"]
      goesOn false
      return [← typeOperator n])
    <|> (node .type do
      keyword "infer"
      let _ ← anyWord
      return [])
    <|> arrayType g

/-- Types joined by a one-character operator. -/
def joinedType (sign : String) (p : Scanner Node) : Scanner Node := do
  let start ← nextStart
  let _ ← optional (op sign)
  let first ← p
  let rest ← many (do goesOn false; op sign; p)
  if rest.isEmpty then return first else close .type start (first :: rest)

/-- A function type or the type of a constructor. -/
def functionType : Scanner Node := node .type do
  let _ ← optional (keyword "abstract")
  let _ ← optional (keyword "new")
  let ts ← optional (g .typeParameters)
  let ps ← g .parameters
  op "=>"
  let r ← answered g
  return ts.toList ++ [ps, r]

def type : Scanner Node := functionType g <|> (do
  let start ← nextStart
  let t ← joinedType "|" (joinedType "&" (typeOperator g 8))
  conditional start t <|> pure t)
where
  conditional (start : Nat) (t : Node) : Scanner Node := do
    goesOn false
    keyword "extends"
    let bound ← g .type
    op "?"
    let yes ← g .type
    op ":"
    let no ← g .type
    close .type start [t, bound, yes, no]

end

end Grammar

end TestMigration
