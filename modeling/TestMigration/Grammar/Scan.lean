import TestMigration.Grammar.Lexeme
import TestMigration.Tree.Node

/-!
# Scanning

The state of a parse is the text behind the last token taken. A scanner moves it on or fails, and a
choice goes back to where it began. Blanks and comments before a token are passed over with it; the
comments are kept aside and find their place in the tree at the end.

A statement may end without a semicolon. `Scan.statementEnd?` decides where: at the end of a block or
of the file, or at a line break that the next token cannot continue.
-/

namespace TestMigration

/-- State of a parse. -/
structure Scan where
  /-- The text behind the last token. -/
  rest : Text
  /-- Offset of `rest` in the file. -/
  pos : Nat
  /-- The comments passed so far, last first. -/
  comments : List Node := []
  /-- Markup elements may stand for expressions, and type assertions may not. -/
  markup : Bool := false
  /-- A statement may end here without a semicolon. -/
  endable : Bool := false
  /-- An arrow function may not state its result, because a colon belongs to something else. -/
  bareArrows : Bool := false

/-- A scanner moves the scan on or fails. -/
abbrev Scanner := StateT Scan Option

namespace Scan

def advance (s : Scan) (taken rest : Text) : Scan :=
  { s with rest, pos := s.pos + Text.size taken }

def skipGaps (s : Scan) : Scan :=
  s.advance (s.rest.takeWhile Lexeme.isGap) (s.rest.dropWhile Lexeme.isGap)

/-- Pass over blanks and one comment, if there is one. -/
def comment? (s : Scan) : Option Scan :=
  let s := s.skipGaps
  match Lexeme.comment s.rest with
  | some (taken, rest) =>
    let next := s.advance taken rest
    some { next with comments := .mk .part .comment ⟨s.pos, next.pos⟩ [] :: s.comments }
  | none => none

/-- Pass over blanks and comments; the number bounds the comments. -/
def skipGo : Nat → Scan → Scan
  | 0, s => s.skipGaps
  | n + 1, s =>
    match s.comment? with
    | some next => skipGo n next
    | none => s.skipGaps

/-- Pass over blanks and comments. -/
def skip (s : Scan) : Scan := skipGo s.rest.length s

/-! ### Ends of statements -/

/-- The text behind blanks and comments, as far as they are well formed. `none` when a slash begins
neither a comment. -/
def behindComments : Nat → Text → Option Text
  | 0, t => some t
  | n + 1, t =>
    let t := t.dropWhile Lexeme.isPlainBlank
    match t with
    | '/' :: _ =>
      match Lexeme.comment t with
      | some (_, rest) => behindComments n rest
      | none => none
    | _ => some t

/-- The text, behind a line break, begins with a token that goes on the statement. In an operand
position `inExpression` holds, and brackets go on as well. -/
def continuesLine (inExpression : Bool) : Text → Bool
  | [] => false
  | '+' :: t => t.head? != some '+'
  | '-' :: t => t.head? != some '-'
  | '!' :: t => t.head? == some '='
  | 'i' :: 'n' :: t =>
    match t with
    | [] => true
    | c :: _ =>
      if !c.isAlpha then true
      else "stanceof".toList.isPrefixOf t && !((t.drop 8).head?.any Char.isAlpha)
  | c :: _ =>
    if c == '(' || c == '[' then inExpression
    else "\x60,.;*%><=?^|&/:".toList.contains c

/-- A statement may end right here. -/
def endsHere (inExpression : Bool) (t : Text) : Bool :=
  match t.dropWhile (fun c => Lexeme.isPlainBlank c && c != '\n') with
  | [] => true
  | '\x7d' :: rest =>
    inExpression || (rest.dropWhile Lexeme.isPlainBlank).head? != some ':'
  | '\n' :: rest =>
    match behindComments rest.length rest with
    | some next => !continuesLine inExpression next
    | none => false
  | _ => false

/-- Where a statement ends without a semicolon: here, or behind comments that stand here. -/
def endGo (inExpression : Bool) : Nat → Scan → Option Scan
  | 0, _ => none
  | n + 1, s =>
    if endsHere inExpression s.rest then some s
    else
      match s.comment? with
      | some next => endGo inExpression n next
      | none => none

/-- The scan at the end of a statement that has no semicolon, if it may end here. -/
def statementEnd? (s : Scan) (inExpression : Bool) : Option Scan :=
  endGo inExpression (s.rest.length + 1) s

end Scan

namespace Scanner

/-! ### Tokens -/

/-- Offset of the next token. -/
def nextStart : Scanner Nat := do return (← get).skip.pos

/-- The next token, if the recogniser takes it: its text and its span. -/
def lexeme (lex : Lexeme) : Scanner (Text × Span) := fun s =>
  let s := s.skip
  match lex s.rest with
  | some (taken, rest) =>
    let next := s.advance taken rest
    some ((taken, ⟨s.pos, next.pos⟩), next)
  | none => none

/-- A lexeme right behind the last token. -/
def immediate (lex : Lexeme) : Scanner (Text × Span) := fun s =>
  match lex s.rest with
  | some (taken, rest) =>
    let next := s.advance taken rest
    some ((taken, ⟨s.pos, next.pos⟩), next)
  | none => none

def op (s : String) : Scanner Unit := do
  let (taken, _) ← lexeme Lexeme.operator
  guard (taken == s.toList)

/-- The characters of `s`, whatever follows. -/
def mark (s : String) : Scanner Unit := do
  let _ ← lexeme (Lexeme.exactly s)

/-- Any word, as text with its span. -/
def anyWord : Scanner (String × Span) := do
  let (taken, span) ← lexeme Lexeme.word
  return (String.ofList taken, span)

def keyword (w : String) : Scanner Unit := do
  let (taken, _) ← lexeme Lexeme.word
  guard (taken == w.toList)

def oneOf (ws : List String) : Scanner String := do
  let (w, _) ← anyWord
  guard (ws.contains w)
  return w

/-- The next word, if the next token is one. -/
def peekWord : Scanner String := do
  let s ← get
  match Lexeme.word s.skip.rest with
  | some (taken, _) => return String.ofList taken
  | none => return ""

/-- The next character that is neither blank nor in a comment. -/
def peekChar : Scanner (Option Char) := do return (← get).skip.rest.head?

/-! ### Combinators -/

/-- `p` succeeds here; the scan stays. -/
def ahead {α : Type} (p : Scanner α) : Scanner Unit := fun s => (p s).map fun _ => ((), s)

/-- `p` fails here; the scan stays. -/
def notAhead {α : Type} (p : Scanner α) : Scanner Unit := fun s =>
  match p s with
  | some _ => none
  | none => some ((), s)

/-- `p` as often as it succeeds, at most so many times. -/
def manyGo {α : Type} (p : Scanner α) : Nat → Scanner (List α)
  | 0 => pure []
  | n + 1 => (do let a ← p; let rest ← manyGo p n; return a :: rest) <|> pure []

/-- `p` as often as it succeeds. It is meant for scanners that take something. -/
def many {α : Type} (p : Scanner α) : Scanner (List α) := do manyGo p ((← get).rest.length + 1)

/-- `p` at least once, with `sep` between. -/
def sepBy1 {α : Type} (sep : Scanner Unit) (p : Scanner α) : Scanner (List α) := do
  let first ← p
  let rest ← many (sep *> p)
  return first :: rest

/-- Replace a node by what `step` makes of it, as long as it succeeds. -/
def extendGo (step : Node → Scanner Node) : Nat → Node → Scanner Node
  | 0, e => pure e
  | n + 1, e => (do let e ← step e; extendGo step n e) <|> pure e

/-- Replace a node by what `step` makes of it, as long as it succeeds. -/
def extend (step : Node → Scanner Node) (e : Node) : Scanner Node := do
  extendGo step ((← get).rest.length + 1) e

/-- Run `p` where a statement may or may not end without a semicolon. -/
def ending {α : Type} (endable : Bool) (p : Scanner α) : Scanner α := do
  let before := (← get).endable
  modify fun s => { s with endable }
  let a ← p
  modify fun s => { s with endable := before }
  return a

/-! ### Nodes and ends of statements -/

/-- A node that began at `start` and ends with the last token; one without tokens ends where it began. -/
def close (kind : Kind) (start : Nat) (children : List Node) : Scanner Node := do
  return .mk .part kind ⟨start, max start (← get).pos⟩ children

/-- A node made of what `p` takes. -/
def node (kind : Kind) (p : Scanner (List Node)) : Scanner Node := do
  let start ← nextStart
  let children ← p
  close kind start children

/-- A node without children for a single lexeme. -/
def leaf (kind : Kind) (lex : Lexeme) : Scanner Node := do
  let (_, span) ← lexeme lex
  return .mk .part kind span []

def keywordLeaf (kind : Kind) (w : String) : Scanner Node := node kind (do keyword w; return [])

/-- No statement ends here, so the next token may go on the expression. -/
def goesOn (inExpression : Bool) : Scanner Unit := do
  let s ← get
  guard (!(s.endable && (s.statementEnd? inExpression).isSome))

/-- The end of a statement that has no semicolon. -/
def lineEnd (inExpression : Bool) : Scanner Unit := fun s =>
  (s.statementEnd? inExpression).map fun next => ((), next)

def semicolon (inExpression : Bool) : Scanner Unit := lineEnd inExpression <|> op ";"

/-- An end without a semicolon that may be missing, behind a block. -/
def optionalEnd : Scanner Unit := lineEnd true <|> pure ()

end Scanner

end TestMigration
