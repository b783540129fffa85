import TestMigration.Grammar.Type

/-!
# Patterns and parameters

What can be bound or assigned: names, members, and object and array patterns. A parameter is a pattern
with an optional mark, type and default.
-/

namespace TestMigration

namespace Grammar

open Scanner

section
variable (g : Rules)

/-- An equals sign and the value it gives. -/
def initializer : Scanner Node := do
  op "="
  let e ← g .expression
  return e.playing .value

/-- A name or a chain of members, as the target of an assignment. -/
def target : Scanner Node := do
  let first ← keywordLeaf .thisKeyword "this" <|> name
  extend step first
where
  step (e : Node) : Scanner Node :=
    (do
      op "."
      let p ← memberName
      close .member e.start [e.playing .object, p.playing .property])
    <|> (do
      let index ← between "[" "]" (g .expressions)
      close .subscript e.start [e.playing .object, index])

/-- A pattern with the default that may follow it. -/
def withDefault (p : Scanner Node) : Scanner Node := do
  let n ← p
  (do
    let e ← initializer g
    close .clause n.start [n.playing .left, e.playing .right]) <|> pure n

def restPattern : Scanner Node := node .clause do
  op "..."
  return [← g .pattern]

def patternMember : Scanner Node :=
  restPattern g
  <|> (node .pairPattern do
    let k ← propertyName g
    op ":"
    let v ← withDefault g (g .pattern)
    return [k.playing .key, v.playing .value])
  <|> withDefault g (leaf .shorthandPattern Lexeme.word)

def pattern : Scanner Node :=
  (node .objectPattern (between "\x7b" "\x7d" (commaSeparated (patternMember g))))
  <|> (node .clause (between "[" "]"
        (commaSeparated (restPattern g <|> withDefault g (g .pattern)))))
  <|> restPattern g
  <|> target g

/-- A decorator: a name with members, called or not, or an expression in parentheses. -/
def decorator : Scanner Node := node .clause do
  op "@"
  let head ← (node .parenthesized do return [← between "(" ")" (g .expressions)]) <|> name
  let e ← extend step head
  return [e]
where
  step (e : Node) : Scanner Node :=
    (do
      op "."
      let p ← memberName
      close .member e.start [e.playing .object, p.playing .property])
    <|> (do
      let ts ← optional (g .typeArguments)
      let args ← g .arguments
      close .call e.start ([e.playing .callee] ++ ts.toList ++ [args.playing .arguments]))

/-- A pattern that can be declared: no members. -/
def binding : Scanner Node := do
  let p ← g .pattern
  guard (p.kind != .member && p.kind != .subscript)
  return p

def parameter : Scanner Node := do
  let start ← nextStart
  let ds ← many (decorator g)
  let _ ← many (modifier ["public", "private", "protected", "override", "readonly"])
  let p ← binding g
  let isOptional ← optional (mark "?")
  let t ← optional (typeMark g)
  let e ← optional (initializer g)
  close (if isOptional.isSome then .optionalParameter else .requiredParameter) start
    (ds ++ [p.playing .pattern] ++ t.toList ++ e.toList)

def parameters : Scanner Node := node .parameters do
  between "(" ")" do
    let ps ← optional (commaSeparated1 (parameter g))
    return ps.getD []

end

end Grammar

end TestMigration
