import TestMigration.Grammar.Expression

/-!
# Markup elements

Elements with attributes and content, as they stand in files whose extension asks for them.
-/

namespace TestMigration

namespace Grammar

open Scanner

/-- A name in markup, in which hyphens may stand. -/
def markupWord : Lexeme := fun t =>
  match Lexeme.word t with
  | some (taken, rest) =>
    let more := rest.takeWhile fun c => Lexeme.isWordPart c || c == '-'
    some (taken ++ more, rest.dropWhile fun c => Lexeme.isWordPart c || c == '-')
  | none => none

/-- A string of markup, in which a backslash means itself. -/
def markupString : Lexeme
  | q :: t =>
    if q == '"' || q == '\'' then
      match t.dropWhile (· != q) with
      | _ :: rest => some (q :: t.takeWhile (· != q) ++ [q], rest)
      | [] => none
    else none
  | [] => none

/-- Text between elements. -/
def markupText : Lexeme := fun t =>
  let stops := "\x7b\x7d<>".toList
  match t.takeWhile (!stops.contains ·) with
  | [] => none
  | taken => some (taken, t.dropWhile (!stops.contains ·))

section
variable (g : Rules)

/-- The name of an element: a word, a chain of members, or a word in a name space. -/
def elementName : Scanner Node := do
  let first ← leaf .identifier markupWord
  (do
    op ":"
    let second ← leaf .identifier markupWord
    close .clause first.start [first, second])
  <|> extend step first
where
  step (e : Node) : Scanner Node := do
    op "."
    let p ← leaf .propertyName Lexeme.word
    close .member e.start [e.playing .object, p.playing .property]

/-- An expression in braces; it may be empty. -/
def embedded : Scanner Node := node .clause do
  between "\x7b" "\x7d" do
    let e ← optional (spread g <|> g .expressions)
    return e.toList

def elementAttribute : Scanner Node := embedded g <|> node .clause do
  let _ ← lexeme markupWord
  let _ ← optional (do op ":"; let _ ← lexeme markupWord)
  let v ← optional (do
    op "="
    leaf .string markupString <|> embedded g <|> g .element)
  return v.toList

/-- What stands between the tags of an element. -/
def content : Scanner (List Node) := do
  let pieces ← many
    ((do let _ ← immediate markupText; return [])
      <|> (do return [← embedded g])
      <|> (do notAhead (op "<" *> op "/"); return [← g .element]))
  return pieces.flatten

def element : Scanner Node := node .expression do
  op "<"
  let head ← optional (elementName)
  let ts ← match head with
    | some _ => optional (g .typeArguments)
    | none => pure none
  let attrs ← match head with
    | some _ => many (elementAttribute g)
    | none => pure []
  let opening := head.toList ++ ts.toList ++ attrs
  selfClosed head opening <|> (do
    mark ">"
    let inner ← content g
    op "<"
    op "/"
    let last ← optional elementName
    guard (last.isSome == head.isSome)
    mark ">"
    return opening ++ inner ++ last.toList)
where
  selfClosed (head : Option Node) (opening : List Node) : Scanner (List Node) := do
    guard head.isSome
    op "/"
    mark ">"
    return opening

end

end Grammar

end TestMigration
