import TestMigration.Grammar.Scan

/-!
# Rules of the grammar

The productions refer to each other through `Rules`, which assigns a scanner to each goal, so that each
of them is an ordinary definition; `Grammar/Source.lean` ties the knot. Here stand the goals and the
productions that everything else is built from: names, literals, lists and templates.
-/

namespace TestMigration

/-- What a production may ask for. -/
inductive Goal where
  | statement
  | block
  /-- One expression or several separated by commas. -/
  | expressions
  /-- One expression. -/
  | expression
  /-- An expression whose binary operators bind at least so tightly. -/
  | binary (least : Nat)
  /-- An operand of binary operators. -/
  | operand
  /-- An operand with members and calls, without operators. -/
  | chained
  /-- An operand with members only, as `new` takes it. -/
  | constructed
  | arguments
  | pattern
  | parameters
  | type
  | typeArguments
  | typeParameters
  | classBody
  | element
deriving DecidableEq, Repr

/-- A scanner for each goal. -/
abbrev Rules := Goal → Scanner Node

namespace Grammar

open Scanner

/-! ### Names -/

/-- Words that begin an expression of their own and so are no names in one. -/
def expressionWords : List String :=
  ["function", "class", "new", "typeof", "void", "delete", "await", "yield", "this", "super", "true",
    "false", "null", "undefined", "import"]

/-- Any word as a name that is being declared. -/
def name : Scanner Node := leaf .identifier Lexeme.word

/-- A name in an expression. -/
def expressionName : Scanner Node := do
  let (w, span) ← anyWord
  guard (!expressionWords.contains w)
  return .mk .part .identifier span []

def memberName : Scanner Node :=
  leaf .propertyName Lexeme.word <|> leaf .privateName Lexeme.privateWord

def stringLiteral : Scanner Node := leaf .string Lexeme.string

def numberLiteral : Scanner Node := leaf .number Lexeme.number

/-! ### Lists -/

/-- Items separated by commas; places between commas may be empty. -/
def commaSeparated (p : Scanner Node) : Scanner (List Node) := do
  let first ← optional p
  let rest ← many (op "," *> optional p)
  return (first :: rest).filterMap id

/-- At least one item, separated by commas, with a comma at the end if you like. -/
def commaSeparated1 (p : Scanner Node) : Scanner (List Node) := do
  let items ← sepBy1 (op ",") p
  let _ ← optional (op ",")
  return items

/-- `open`, then `p` where no statement can end, then `close`. -/
def between {α : Type} (opening closing : String) (p : Scanner α) : Scanner α := do
  op opening
  let a ← ending false p
  op closing
  return a

section
variable (g : Rules)

def spread : Scanner Node := node .clause do
  op "..."
  return [← g .expression]

def arguments : Scanner Node := node .arguments do
  between "(" ")" (commaSeparated (spread g <|> g .expression))

/-! ### Templates -/

/-- Characters of a template up to a substitution, an escape or the end. -/
def templateChars : Text → Text × Text
  | '$' :: '\x7b' :: t => ([], '$' :: '\x7b' :: t)
  | c :: t =>
    if c == '\x60' || c == '\\' then ([], c :: t)
    else
      let (taken, rest) := templateChars t
      (c :: taken, rest)
  | [] => ([], [])

/-- A piece of a template that is kept as it is. -/
def templatePlain : Lexeme
  | '\\' :: t => (Lexeme.escaped t).map fun (taken, rest) => ('\\' :: taken, rest)
  | t =>
    match templateChars t with
    | ([], _) => none
    | r => some r

/-- A substitution with the given content. -/
def substitution (content : Scanner Node) : Scanner Node := do
  let (_, span) ← immediate (Lexeme.exactly "$\x7b")
  let inner ← ending false content
  op "\x7d"
  close .substitution span.start [inner]

/-- A template whose substitutions hold `content`. -/
def templateOf (kind : Kind) (content : Scanner Node) : Scanner Node := node kind do
  mark "\x60"
  let pieces ← many
    ((do let _ ← immediate templatePlain; return []) <|> (do return [← substitution content]))
  let _ ← immediate (Lexeme.exactly "\x60")
  return pieces.flatten

def template : Scanner Node := templateOf .template (g .expressions)

/-! ### Names of members -/

/-- The name of a member of an object or a class. -/
def propertyName : Scanner Node :=
  memberName <|> stringLiteral <|> numberLiteral
    <|> node .clause (do return [← between "[" "]" (g .expression)])

/-- The next token may begin the name of a member. -/
def beginsName : Scanner Unit := do
  let c ← peekChar
  match c with
  | some c => guard (Lexeme.isWordPart c || c == '\\' || "\"'[#".toList.contains c)
  | none => failure

/-- One of the words as a modifier of the member whose name follows. -/
def modifier (ws : List String) : Scanner Unit := do
  let _ ← oneOf ws
  ahead (beginsName <|> op "*")

end

end Grammar

end TestMigration
