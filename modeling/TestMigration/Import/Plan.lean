import TestMigration.Diagnostic
import TestMigration.Import.Reference
import TestMigration.Import.Scan
import TestMigration.Style.Basic

/-!
# Planning imports

Declarations of legacy modules go when none of their names is used any more. What generated code needs
is added to the declaration that the file has of the module, or written as a new declaration in front
of the first one.
-/

namespace TestMigration

/-- What a migrated file needs of its declarations. -/
structure ImportRequest where
  modules : List ModuleKind := []
  /-- Registration functions to import, in order. -/
  testNames : List String := []
  /-- Modules whose declarations should go. -/
  legacy : List String := []
deriving Repr, Inhabited

/-- What is needed from one module. -/
structure Need where
  default : Option String := none
  named : List String := []
deriving DecidableEq, Repr, Inhabited

namespace Need

def isEmpty (n : Need) : Bool := n.default.isNone && n.named.isEmpty

end Need

/-- The file and its conventions, for writing declarations. -/
structure ImportPlanner where
  scan : ImportScan
  names : Names
  targets : Targets
  dialect : Dialect
  style : Style
deriving Inhabited

namespace ImportPlanner

variable (p : ImportPlanner)

/-! ### Legacy declarations -/

/-- The names of a legacy declaration that are used somewhere else and not imported anew. -/
def stillUsed (source : Text) (tree : Node) (provided : List String) (edits : List Edit)
    (d : Declaration) : List String :=
  d.locals.filter fun name =>
    !provided.contains name && isStillReferenced source tree name [d.statement.span] edits

def keptWarning (source : Text) (d : Declaration) (used : List String) : Diagnostic :=
  .warning ("'" ++ d.specifier ++ "' import kept: " ++ String.intercalate ", " used
    ++ " still referenced") (d.statement.location source)

/-- The edits behind those found before, with the legacy declarations deleted that can go, and a
warning for each of the others. -/
def dropLegacy (source : Text) (tree : Node) (request : ImportRequest) (edits : List Edit) :
    List Edit × List Diagnostic :=
  let provided := if request.modules.contains .test then request.testNames else []
  let legacy := p.scan.declarations.filter fun d => request.legacy.contains d.logical
  legacy.foldl (fun (edits, diagnostics) d =>
    match stillUsed source tree provided edits d with
    | [] => (edits ++ [.deleteStatement source d.statement.span "legacy-import"], diagnostics)
    | used => (edits, diagnostics ++ [keptWarning source d used])) (edits, [])

/-! ### Needs -/

/-- What one need asks of its module. -/
def demand (request : ImportRequest) : ModuleKind → Need
  | .assert => { default := some p.names.assert }
  | .test => { named := request.testNames }
  | .mock => { named := ["mock"] }
  | .util => { named := ["isDeepStrictEqual"] }

/-- The needs with one more, joined with what is needed under the same specifier. -/
def addNeed (specifier : String) (need : Need) : List (String × Need) → List (String × Need)
  | [] => [(specifier, need)]
  | (s, n) :: rest =>
    if s == specifier then
      (s, { default := need.default <|> n.default, named := n.named ++ need.named }) :: rest
    else (s, n) :: addNeed specifier need rest

def needs (request : ImportRequest) : List (String × Need) :=
  (ModuleKind.all.filter request.modules.contains).foldl
    (fun l kind => addNeed (p.targets.specifier kind) (p.demand request kind) l) []

/-! ### New declarations -/

def declare (specifier : String) (need : Need) : String :=
  let module := p.style.quoteText ++ specifier ++ p.style.quoteText
  let line (bound : String) : String :=
    match p.dialect with
    | .esm => "import " ++ bound ++ " from " ++ module ++ p.style.terminator
    | .commonJs => "const " ++ bound ++ " = require(" ++ module ++ ")" ++ p.style.terminator
  let named := if need.named.isEmpty then []
    else [line ("\x7b " ++ String.intercalate ", " need.named ++ " \x7d")]
  String.intercalate "\n" ((need.default.map line).toList ++ named)

/-- The clause of an import that names can be put in front of. -/
def importClause? (d : Declaration) : Option Site :=
  match d.dialect with
  | .esm => (d.namedClause.bind (·.parent?)).filter (·.kind == .importClause)
  | .commonJs => none

/-- The edits that add a default name, and what cannot be added. -/
def addDefault (d : Declaration) : Option String → List Edit × Option String
  | none => ([], none)
  | some name =>
    match importClause? d with
    | some clause => ([.insert clause.span.start (name ++ ", ") "import"], none)
    | none => ([], some name)

/-- The edits that add names, and what cannot be added. -/
def addNamed (d : Declaration) (missing : List String) : List Edit × List String :=
  let list := String.intercalate ", " missing
  let braced := "\x7b " ++ list ++ " \x7d"
  if missing.isEmpty then ([], [])
  else
    match d.namedClause, d.defaultNode with
    | some clause, _ =>
      match clause.parts.getLast? with
      | some last => ([.insert last.span.stop (", " ++ list) "import"], [])
      | none => ([.replaceText clause.span braced "import"], [])
    | none, some name =>
      if d.isNamespace then ([], missing)
      else ([.insert name.span.stop (", " ++ braced) "import"], [])
    | none, none => ([], missing)

/-- The edits that extend a declaration by what is needed, and the declaration of what it cannot
take. -/
def extend (d : Declaration) (need : Need) : List Edit × Option String :=
  let missing := need.named.filter fun name => (d.localFor? name).isNone
  let missingDefault := need.default.filter fun _ =>
    d.default.isNone && (d.localFor? "strict").isNone
  let (first, default) := addDefault d missingDefault
  let (second, named) := addNamed d missing
  let rest : Need := { default, named }
  (first ++ second, if rest.isEmpty then none else some (p.declare d.specifier rest))

/-- The edit that adds new declarations: in front of the first declaration of the file, behind a
directive, or in front of the first statement. -/
def insertion (source : Text) (declarations : List String) : Edit :=
  let block := String.intercalate "\n" declarations
  match p.scan.declarations.head?, p.scan.directive with
  | some first, _ =>
    let at' := source.lineStart first.statement.span.start
    .insert at' (source.lineIndent at' ++ block ++ "\n") "import"
  | none, some directive =>
    let stop := directive.span.stop
    let rest := source.dropBytes stop
    if rest.contains '\n' then
      .insert (stop + Text.size (rest.takeWhile (· != '\n')) + 1) (block ++ "\n") "import"
    else .insert stop ("\n" ++ block ++ "\n") "import"
  | none, none =>
    let at' := (p.scan.firstStatement.map fun s => source.lineStart s.span.start).getD 0
    .insert at' (block ++ "\n\n") "import"

/-- The edits behind those found before, with all that imports need, and the warnings. -/
def plan (source : Text) (tree : Node) (request : ImportRequest) (edits : List Edit) :
    List Edit × List Diagnostic :=
  let (edits, diagnostics) := p.dropLegacy source tree request edits
  let extended := (p.needs request).map fun (specifier, need) =>
    match p.scan.find? specifier with
    | some d => p.extend d need
    | none => ([], some (p.declare specifier need))
  let edits := edits ++ extended.flatMap (·.1)
  match extended.filterMap (·.2) with
  | [] => (edits, diagnostics)
  | new => (edits ++ [p.insertion source new], diagnostics)

end ImportPlanner

end TestMigration
