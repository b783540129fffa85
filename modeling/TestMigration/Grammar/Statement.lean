import TestMigration.Grammar.Class

/-!
# Statements

Declarations, imports and exports, control flow and expression statements. An expression statement
takes its semicolon into its span, or the comments of its line when it ends without one.
-/

namespace TestMigration

namespace Grammar

open Scanner

section
variable (g : Rules)

/-- An expression at the end of which the statement may end. -/
def lastExpressions : Scanner Node := ending true (g .expressions)

def block : Scanner Node := node .block do
  op "\x7b"
  let ss ← many (g .statement)
  op "\x7d"
  optionalEnd
  return ss

/-! ### Variables -/

/-- A variable with its type and value. -/
def declarator : Scanner Node := node .variableDeclarator do
  let n ← binding g
  let _ ← optional (do op "!"; ahead (mark ":"))
  let t ← optional (typeMark g)
  let e ← optional (initializer g)
  return [n.playing .name] ++ t.toList ++ e.toList

def declares (kind : Kind) (ws : List String) : Scanner Node := node kind do
  let _ ← oneOf ws
  let ds ← ending true (sepBy1 (op ",") (declarator g))
  let valued := (ds.getLast?.bind (·.child? .value)).isSome
  semicolon valued
  return ds

def variableStatement : Scanner Node :=
  declares g .variableDeclaration ["var"] <|> declares g .lexicalDeclaration ["let", "const"]

/-! ### Functions and classes -/

def functionStatement : Scanner Node := do
  let start ← nextStart
  let _ ← optional (asyncBefore (keyword "function"))
  keyword "function"
  let star ← optional (op "*")
  let n ← name
  let sig ← signature g
  let head := n.playing .name :: sig
  (do
    let b ← g .block
    optionalEnd
    close (if star.isSome then .generatorDeclaration else .functionDeclaration) start
      (head ++ [b.playing .body]))
  <|> (do
    semicolon false
    close .statement start head)

def classStatement : Scanner Node := do
  let start ← nextStart
  let ds ← many (decorator g)
  let isAbstract ← optional (keyword "abstract")
  keyword "class"
  let rest ← classRest g true
  optionalEnd
  close (if isAbstract.isSome then .statement else .classDeclaration) start (ds ++ rest)

/-! ### Types and modules -/

/-- A name for a type. -/
def typeAlias : Scanner Node := node .statement do
  keyword "type"
  let _ ← anyWord
  let ts ← optional (g .typeParameters)
  op "="
  let t ← ending true (g .type)
  semicolon false
  return ts.toList ++ [t]

def interface : Scanner Node := node .statement do
  keyword "interface"
  let _ ← anyWord
  let ts ← optional (g .typeParameters)
  let bases ← optional (do
    keyword "extends"
    sepBy1 (op ",") (g .type))
  let b ← objectType g
  return ts.toList ++ bases.getD [] ++ [b]

def enumeration : Scanner Node := node .statement do
  let _ ← optional (keyword "const")
  keyword "enum"
  let n ← name
  let ms ← between "\x7b" "\x7d" (commaSeparated (node .clause do
    let k ← propertyName g
    let e ← optional (initializer g)
    return k :: e.toList))
  return n :: ms

/-- A name space or module. -/
def moduleStatement : Scanner Node := node .statement do
  let _ ← oneOf ["namespace", "module"]
  let n ← (do return [← stringLiteral]) <|> sepBy1 (op ".") name
  let b ← optional (g .block)
  match b with
  | some _ => optionalEnd
  | none => semicolon false
  return n ++ b.toList

/-- A name for a member of a module. -/
def importAlias : Scanner Node := node .statement do
  keyword "import"
  let n ← name
  op "="
  let path ← sepBy1 (op ".") name
  semicolon false
  return n :: path

/-- A declaration of something in the file itself. -/
def ownDeclaration : Scanner Node :=
  variableStatement g <|> functionStatement g <|> classStatement g <|> typeAlias g <|> interface g
    <|> enumeration g <|> moduleStatement g <|> importAlias

/-- A declaration, also of something that exists elsewhere; the number bounds how often that is said. -/
def declarationGo : Nat → Scanner Node
  | 0 => ownDeclaration g
  | n + 1 => ownDeclaration g <|> node .statement do
    keyword "declare"
    let d ← (do keyword "global"; g .block) <|> declarationGo n
    return [d]

def declaration : Scanner Node := declarationGo g 4

/-! ### Imports and exports -/

/-- The name of something exported: a word or a string. -/
def exportedName : Scanner Node := name <|> stringLiteral

def importSpecifier : Scanner Node := node .importSpecifier do
  let _ ← optional (do let _ ← oneOf ["type", "typeof"]; ahead (anyNotAs <|> stringAhead))
  (do
    let n ← exportedName
    keyword "as"
    let a ← name
    return [n.playing .name, a.playing .rename])
  <|> (do
    let n ← name
    return [n.playing .name])
where
  anyNotAs : Scanner Unit := do
    let (w, _) ← anyWord
    guard (w != "as")
  stringAhead : Scanner Unit := do let _ ← stringLiteral

def namedImports : Scanner Node :=
  node .namedImports (between "\x7b" "\x7d" (commaSeparated importSpecifier))

/-- A whole module under a name. -/
def namespaceImport : Scanner Node := node .namespaceImport do
  op "*"
  keyword "as"
  return [← name]

def importClause : Scanner Node := node .importClause do
  (do return [← namespaceImport <|> namedImports])
  <|> (do
    let n ← name
    let more ← optional (do op ","; namespaceImport <|> namedImports)
    return n :: more.toList)

/-- The module that something comes from. -/
def fromModule : Scanner Node := do
  keyword "from"
  let s ← stringLiteral
  return s.playing .source

def importAttributes : Scanner Node := node .clause do
  let _ ← oneOf ["with", "assert"]
  return [← objectLiteral g]

def importStatement : Scanner Node := node .importStatement do
  keyword "import"
  let parts ← bare <|> typed <|> bound
  let attrs ← optional (importAttributes g)
  semicolon false
  return parts ++ attrs.toList
where
  bare : Scanner (List Node) := do return [(← stringLiteral).playing .source]
  bound : Scanner (List Node) := required <|> (do
    let c ← importClause
    let s ← fromModule
    return [c, s])
  typed : Scanner (List Node) := do
    let _ ← oneOf ["type", "typeof"]
    bound
  required : Scanner (List Node) := do
    let c ← node .clause do
      let n ← name
      op "="
      keyword "require"
      op "("
      let s ← stringLiteral
      op ")"
      return [n, s]
    return [c]

def exportClause : Scanner Node := node .clause do
  between "\x7b" "\x7d" (commaSeparated (node .clause do
    let _ ← optional (do let _ ← oneOf ["type", "typeof"]; ahead do
      let (w, _) ← anyWord
      guard (w != "as"))
    let n ← exportedName
    let a ← optional (do keyword "as"; exportedName)
    return n :: a.toList))

/-- What follows `export`. -/
def exported : Scanner (List Node) :=
  (do
    let names ← (do
        op "*"
        let n ← optional (do keyword "as"; exportedName)
        let s ← fromModule
        return n.toList ++ [s])
      <|> (do
        let _ ← optional (keyword "type")
        let c ← exportClause
        let s ← optional fromModule
        return c :: s.toList)
    semicolon false
    return names)
  <|> (do
    keyword "default"
    (do return [← declaration g]) <|> value)
  <|> (do op "="; value)
  <|> (do
    keyword "as"
    keyword "namespace"
    let n ← name
    semicolon false
    return [n])
  <|> (do return [← declaration g])
where
  value : Scanner (List Node) := do
    let e ← ending true (g .expression)
    semicolon true
    return [e.playing .value]

def exportStatement : Scanner Node := node .exportStatement do
  let ds ← many (decorator g)
  keyword "export"
  return ds ++ (← exported g)

/-! ### Control flow -/

/-- An expression in parentheses, as the condition of a statement. -/
def condition : Scanner Node := parenthesized g

def ifStatement : Scanner Node := node .statement do
  keyword "if"
  let c ← condition g
  let yes ← g .statement
  let no ← optional (node .clause do
    keyword "else"
    return [← g .statement])
  return [c, yes] ++ no.toList

def switchCase : Scanner Node := node .switchCase do
  let e ← (do keyword "case"; return [← g .expressions]) <|> (do keyword "default"; return [])
  op ":"
  return e ++ (← many (g .statement))

def switchStatement : Scanner Node := node .statement do
  keyword "switch"
  let c ← condition g
  let b ← node .clause do
    op "\x7b"
    let cases ← many (switchCase g)
    op "\x7d"
    return cases
  return [c, b]

/-- A loop over the items or keys of something. -/
def forEach : Scanner Node := node .statement do
  keyword "for"
  let _ ← optional (keyword "await")
  op "("
  let l ← declared <|> (do return [← ending false (g .chained)]) <|> (do return [← g .pattern])
  let _ ← oneOf ["in", "of"]
  let r ← ending false (g .expressions)
  op ")"
  return l ++ [r.playing .right, ← g .statement]
where
  declared : Scanner (List Node) := do
    let _ ← oneOf ["var", "let", "const"]
    let n ← binding g
    let e ← optional (ending false (initializer g))
    ahead (oneOf ["in", "of"])
    return n.playing .left :: e.toList

/-- A loop with a start, a condition and a step. -/
def forCount : Scanner Node := node .statement do
  keyword "for"
  op "("
  let start ← (do return [← variableStatement g]) <|> (do op ";"; return []) <|> (do
    let e ← ending false (g .expressions)
    op ";"
    return [e])
  let c ← optional (ending false (g .expressions))
  op ";"
  let step ← optional (ending false (g .expressions))
  op ")"
  return start ++ c.toList ++ step.toList ++ [← g .statement]

def whileStatement (w : String) : Scanner Node := node .statement do
  keyword w
  let c ← condition g
  return [c, ← g .statement]

def doStatement : Scanner Node := node .statement do
  keyword "do"
  let b ← g .statement
  keyword "while"
  let c ← condition g
  let _ ← optional (semicolon true)
  return [b, c]

def tryStatement : Scanner Node := node .statement do
  keyword "try"
  let b ← g .block
  let h ← optional (node .clause do
    keyword "catch"
    let p ← optional (between "(" ")" do
      let p ← binding g
      let t ← optional (typeMark g)
      return p :: t.toList)
    return p.getD [] ++ [← g .block])
  let f ← optional (node .clause do
    keyword "finally"
    return [← g .block])
  return b :: h.toList ++ f.toList

/-- A jump, with the label it goes to. -/
def jump (w : String) : Scanner Node := node .statement do
  keyword w
  (do lineEnd false; return []) <|> (do
    let _ ← optional anyWord
    semicolon false
    return [])

def returnStatement : Scanner Node := node .returnStatement do
  keyword "return"
  (do lineEnd false; return []) <|> (do
    let e ← lastExpressions g
    semicolon true
    return [e]) <|> (do
    semicolon false
    return [])

/-- A failure. -/
def throwStatement : Scanner Node := node .statement do
  keyword "throw"
  let e ← lastExpressions g
  semicolon true
  return [e]

/-- Words that never begin an expression statement or a label. -/
def statementWords : List String :=
  ["if", "else", "switch", "case", "default", "for", "while", "do", "try", "catch", "finally", "with",
    "break", "continue", "return", "throw", "debugger", "var", "const", "enum", "interface"]

def labeled : Scanner Node := node .statement do
  let (w, _) ← anyWord
  guard (!statementWords.contains w && !expressionWords.contains w)
  op ":"
  return [← g .statement]

def expressionStatement : Scanner Node := node .expressionStatement do
  guard (!statementWords.contains (← peekWord))
  let e ← lastExpressions g
  semicolon true
  return [e]

/-- A statement that begins with a brace: a block, or an object whose first member could be taken for
a labelled statement. -/
def braced : Scanner Node :=
  (do
    ahead (op "\x7b" *> anyWord *> op ":")
    expressionStatement g) <|> block g <|> expressionStatement g

def statement : Scanner Node := do
  match ← peekChar with
  | some '\x7b' => braced g
  | some ';' => node .statement do op ";"; return []
  | some '@' => classStatement g <|> exportStatement g <|> expressionStatement g
  | _ =>
    match ← peekWord with
    | "import" => importStatement g <|> importAlias <|> expressionStatement g
    | "export" => exportStatement g <|> labeled g <|> expressionStatement g
    | "var" => variableStatement g
    | "const" => enumeration g <|> variableStatement g
    | "let" | "function" | "async" | "class" | "abstract" | "type" | "interface" | "enum"
    | "namespace" | "module" | "declare" =>
      declaration g <|> labeled g <|> expressionStatement g
    | "if" => ifStatement g
    | "switch" => switchStatement g
    | "for" => forEach g <|> forCount g
    | "while" => whileStatement g "while"
    | "with" => whileStatement g "with"
    | "do" => doStatement g
    | "try" => tryStatement g
    | "break" => jump "break"
    | "continue" => jump "continue"
    | "return" => returnStatement g
    | "throw" => throwStatement g
    | "debugger" => node .statement do keyword "debugger"; semicolon false; return []
    | _ => labeled g <|> expressionStatement g

end

end Grammar

end TestMigration
