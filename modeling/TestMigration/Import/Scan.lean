import TestMigration.Chain
import TestMigration.Import.Target
import TestMigration.Path

/-!
# Scanning declarations

The imports and requires at the top level of a file, the names bound there, and the names under which
the file knows the target modules and the legacy libraries.
-/

namespace TestMigration

/-- An import or require at the top level. -/
structure Declaration where
  statement : Site
  specifier : String
  dialect : Dialect
  /-- Name of the module as a whole. -/
  default : Option String := none
  /-- Imported names with the names they have in the file. -/
  named : List (String × String) := []
  /-- The braces around the imported names. -/
  namedClause : Option Site := none
  /-- The name of a default import. -/
  defaultNode : Option Site := none
  isNamespace : Bool := false
deriving Repr, Inhabited

namespace Declaration

def logical (d : Declaration) : String := logicalModule d.specifier

def locals (d : Declaration) : List String := d.default.toList ++ d.named.map (·.2)

/-- The name that something imported has in the file. -/
def localFor? (d : Declaration) (imported : String) : Option String :=
  (d.named.find? (·.1 == imported)).map (·.2)

end Declaration

/-- What stands at the top level of a file. -/
structure ImportScan where
  declarations : List Declaration := []
  /-- The last of the string statements that the file begins with. -/
  directive : Option Site := none
  /-- The first statement that is no directive. -/
  firstStatement : Option Site := none
  /-- The names bound at the top level. -/
  bound : List String := []
deriving Repr, Inhabited

/-! ### Requires -/

/-- The module that `require` is called with. -/
def Site.requiredModule? (s : Site) (source : Text) : Option String := do
  let call := s.core
  guard (call.kind == .call)
  let f ← call.child? .callee
  guard (f.kind == .identifier && f.text source == "require")
  let first ← call.callArguments.head?
  first.stringValue? source

/-- The module that is required at the bottom of a chain. -/
def Site.chainedRequire? (s : Site) (source : Text) : Option String :=
  (Chain.walk source s.core).subject.requiredModule? source

/-- The names that a pattern takes from a module, with the names they get. -/
def patternNames (source : Text) (pattern : Site) : List (String × String) :=
  pattern.children.filterMap fun p =>
    match p.kind with
    | .shorthandPattern => some (p.text source, p.text source)
    | .pairPattern => do
      let key ← p.child? .key
      let value ← p.child? .value
      return (key.text source, value.text source)
    | _ => none

/-- The require in a declaration of a single variable. -/
def commonJsDeclaration? (source : Text) (statement : Site) : Option Declaration :=
  match statement.declarators with
  | [declarator] => do
    let value ← declarator.child? .value
    let chain := Chain.walk source value.core
    let specifier ← chain.subject.requiredModule? source
    let pattern ← declarator.child? .name
    let declaration : Declaration := { statement, specifier, dialect := .commonJs }
    match pattern.kind, chain.steps with
    | .identifier, step :: _ =>
      return { declaration with named := [(step.name, pattern.text source)] }
    | .identifier, [] => return { declaration with default := some (pattern.text source) }
    | .objectPattern, [] =>
      return { declaration with namedClause := some pattern, named := patternNames source pattern }
    | _, _ => return declaration
  | _ => none

/-! ### Imports -/

/-- The names in the braces of an import. -/
def specifierNames (source : Text) (clause : Site) : List (String × String) :=
  clause.children.filterMap fun s => do
    guard (s.kind == .importSpecifier)
    let name ← s.child? .name
    let imported := name.text source
    return (imported, ((s.child? .rename).map (·.text source)).getD imported)

/-- A declaration with what a part of an import clause binds. -/
def Declaration.addPart (source : Text) (d : Declaration) (part : Site) : Declaration :=
  match part.kind with
  | .identifier => { d with default := some (part.text source), defaultNode := some part }
  | .namespaceImport =>
    let name := part.children.find? (·.kind == .identifier)
    { d with default := name.map (·.text source), isNamespace := true }
  | .namedImports =>
    { d with namedClause := some part, named := d.named ++ specifierNames source part }
  | _ => d

/-- What an import statement declares; nothing if it imports types. -/
def esmDeclaration? (source : Text) (statement : Site) : Option Declaration := do
  guard (!Text.startsWith (source.slice statement.span.start statement.span.stop) "import type")
  let from' ← statement.child? .source
  let specifier ← from'.stringValue? source
  let declaration : Declaration := { statement, specifier, dialect := .esm }
  match statement.children.find? (·.kind == .importClause) with
  | some clause => return clause.children.foldl (Declaration.addPart source) declaration
  | none => return declaration

/-! ### The scan -/

/-- The names that the variables and patterns of a statement bind. -/
def boundNames (source : Text) (statement : Site) : List String :=
  statement.sites.filterMap fun s =>
    match s.kind with
    | .variableDeclarator => do
      let name ← s.child? .name
      guard (name.kind == .identifier)
      return name.text source
    | .shorthandPattern => some (s.text source)
    | _ => none

namespace ImportScan

def addStatement (scan : ImportScan) (statement : Site) : ImportScan :=
  { scan with firstStatement := scan.firstStatement <|> some statement }

/-- The scan with what one more statement declares. -/
def add (source : Text) (scan : ImportScan) (statement : Site) : ImportScan :=
  match statement.kind with
  | .comment | .hashBang => scan
  | .expressionStatement =>
    match statement.children.head? with
    | none => scan
    | some e =>
      if e.kind == .string && scan.firstStatement.isNone then
        { scan with directive := some statement }
      else
        let found := (e.chainedRequire? source).map fun specifier =>
          ({ statement, specifier, dialect := .commonJs } : Declaration)
        { scan with declarations := scan.declarations ++ found.toList }.addStatement statement
  | .importStatement =>
    let found := esmDeclaration? source statement
    { scan with
      declarations := scan.declarations ++ found.toList
      bound := scan.bound ++ (found.map Declaration.locals).getD [] }.addStatement statement
  | .lexicalDeclaration | .variableDeclaration =>
    { scan with
      declarations := scan.declarations ++ (commonJsDeclaration? source statement).toList
      bound := scan.bound ++ boundNames source statement }.addStatement statement
  | .functionDeclaration | .classDeclaration =>
    let name := (statement.child? .name).map (·.text source)
    { scan with bound := scan.bound ++ name.toList }.addStatement statement
  | _ => scan.addStatement statement

/-- What stands at the top level of a tree. -/
def ofTree (source : Text) (tree : Node) : ImportScan :=
  (Site.children ⟨tree, []⟩).foldl (add source) {}

def find? (scan : ImportScan) (specifier : String) : Option Declaration :=
  scan.declarations.find? (·.logical == logicalModule specifier)

/-- How the file imports: as its extension says, otherwise as it does already. -/
def dialect (scan : ImportScan) (path : String) : Dialect :=
  match Path.extension path with
  | "mjs" | "mts" => .esm
  | "cjs" | "cts" => .commonJs
  | _ =>
    if scan.declarations.any (·.dialect == .esm) then .esm
    else if scan.declarations.any (·.dialect == .commonJs) then .commonJs
    else .esm

/-- The name under which a declaration makes the assert module known, and whether it is strict. -/
def assertName? (d : Declaration) : Option (String × Bool) :=
  match d.default with
  | some name => some (name, isStrictSpecifier d.specifier)
  | none => (d.localFor? "strict").map fun name => (name, true)

/-- The names that generated code has to use, from what the file declares. -/
def names (scan : ImportScan) (targets : Targets) : Names :=
  let assertName := (scan.find? targets.assert).bind assertName?
  let fresh := if scan.bound.contains "assert" then "nodeAssert" else "assert"
  let chai := scan.find? "chai"
  { assert := (assertName.map (·.1)).getD fresh
    assertStrict := (assertName.map (·.2)).getD (isStrictSpecifier targets.assert)
    mock := ((scan.find? targets.test).bind (·.localFor? "mock")).getD "mock"
    util := ((scan.find? targets.util).bind (·.localFor? "isDeepStrictEqual")).getD
      "isDeepStrictEqual"
    sinon := ((scan.find? "sinon").bind (·.default)).getD "sinon"
    chai := (chai.bind (·.default)).getD "chai"
    should := ((scan.find? "should").bind (·.default)).getD "should"
    expect := (chai.bind (·.localFor? "expect")).getD "expect" }

end ImportScan

end TestMigration
