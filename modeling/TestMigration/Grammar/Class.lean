import TestMigration.Grammar.Expression

/-!
# Class bodies

Methods, fields, signatures, static blocks and decorators.
-/

namespace TestMigration

namespace Grammar

open Scanner

section
variable (g : Rules)

/-- Words that may stand before a member of a class. -/
def memberModifiers : List String :=
  ["public", "private", "protected", "static", "override", "readonly", "abstract", "declare",
    "accessor", "async", "get", "set"]

/-- A block that runs when the class is made. -/
def staticBlock : Scanner (List Node) := do
  let b ← node .clause do
    keyword "static"
    return [(← g .block).playing .body]
  return [b]

def classMethod : Scanner (List Node) := do
  let m ← node .method do
    let _ ← many (modifier memberModifiers)
    let _ ← optional (op "*")
    let n ← propertyName g
    let _ ← optional (op "?")
    let sig ← signature g
    let b ← g .block
    return [n.playing .name] ++ sig ++ [b.playing .body]
  let _ ← optional (semicolon true)
  return [m]

/-- A method without a body. -/
def methodSignature : Scanner (List Node) := do
  let m ← node .clause do
    let _ ← many (modifier memberModifiers)
    let n ← propertyName g
    let _ ← optional (op "?")
    let sig ← signature g
    return [n.playing .name] ++ sig
  semicolon false <|> op ","
  return [m]

def field : Scanner (List Node) := do
  let start ← nextStart
  let _ ← many (modifier memberModifiers)
  let n ← propertyName g
  let _ ← optional (op "?" <|> op "!")
  let t ← optional (typeMark g)
  let e ← optional (ending true (initializer g))
  let f ← close .clause start ([n.playing .name] ++ t.toList ++ e.toList)
  semicolon e.isSome <|> op ","
  return [f]

def classMember : Scanner (List Node) :=
  (do op ";"; return [])
  <|> (do return [← decorator g])
  <|> staticBlock g
  <|> classMethod g
  <|> methodSignature g
  <|> (do
    let _ ← many (modifier ["static", "declare", "public", "private", "protected"])
    let s ← indexSignature g
    semicolon false <|> op ","
    return [s])
  <|> field g

def classBody : Scanner Node := node .clause do
  op "\x7b"
  let ms ← ending true (many (classMember g))
  op "\x7d"
  return ms.flatten

end

end Grammar

end TestMigration
