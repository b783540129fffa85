import TestMigration.Edit.Basic
import TestMigration.Diagnostic
import TestMigration.Scope
import TestMigration.Stub.Entry

/-!
# Plans for stubs

All configurations of one stub in one scope are gathered in a plan, and each plan becomes one edit that
installs the merged function, with the other statements deleted. A plan that meets something it cannot
keep is skipped as a whole: it makes no edit and one diagnostic.
-/

namespace TestMigration

/-- A chain that makes or configures a stub. -/
structure StubConfig where
  /-- Text of the mocked object, or name of the stub's variable. -/
  subject : String
  /-- Name of the mocked member; empty for stubs without one. -/
  member : String
  /-- The mocked object, where the stub is made. -/
  object : Option Site
  /-- The variable that holds the stub. -/
  binding : Option String
  /-- The chain makes the stub. -/
  isCreation : Bool
  /-- The configuring steps. -/
  tail : List Step
  /-- The end of the chain. -/
  root : Site
deriving Repr, Inhabited

/-- The configurations of one stub in one scope. -/
structure Plan where
  /-- The chain that makes the stub. -/
  install : Option Site := none
  object : Option Site := none
  binding : Option String := none
  entries : List Entry := []
  /-- Chains that configure the stub later, in the order of the file. -/
  contributions : List Site := []
  /-- Span of the test or suite that the plan belongs to. -/
  scope : Span
  /-- Why and where the plan was given up. -/
  skipped : Option (String × Location) := none
deriving Repr, Inhabited

/-- Kinds of functions in whose bodies a statement runs unconditionally. -/
def Kind.isFunction : Kind → Bool
  | .arrowFunction | .functionExpression | .functionDeclaration | .generatorExpression
  | .generatorDeclaration | .method => true
  | _ => false

/-- The chain is a statement right in a function body or at the top level. -/
def Site.isUnconditional (root : Site) : Bool :=
  match root.parentOf? .expressionStatement with
  | none => false
  | some statement =>
    match statement.parent? with
    | none => false
    | some list =>
      match list.kind with
      | .program => true
      | .block => (list.parent?.map (·.kind.isFunction)).getD false
      | _ => false

namespace Plan

/-- Give the plan up, unless it was given up before. -/
def skip (p : Plan) (reason : String) (at' : Site) (source : Text) : Plan :=
  match p.skipped with
  | some _ => p
  | none => { p with skipped := some (reason, source.locationAt at'.span.start) }

/-- Why an entry cannot join the plan: its condition is taken. -/
def conflict? (p : Plan) (source : Text) (e : Entry) : Option String :=
  let condition := e.conditionText source
  if p.entries.any (fun other => other.conditionText source == condition) then
    match condition with
    | none => some "default behaviour configured more than once"
    | some args =>
      some ("withArgs(" ++ String.intercalate ", " args ++ ") configured more than once")
  else none

/-- The span of the other plan's scope lies in that of this one. -/
def encloses (p other : Plan) : Bool := p.scope.contains other.scope

/-- The plan with a chain whose entry is known. -/
def join (p : Plan) (config : StubConfig) (entry : Option Entry) (source : Text) : Plan :=
  let binding := p.binding <|> config.binding
  let entries := p.entries ++ entry.toList
  if config.isCreation then
    if p.install.isSome then p.skip "stubbed more than once in the same scope" config.root source
    else { p with install := some config.root, object := config.object, binding, entries }
  else if !config.root.isUnconditional then
    p.skip "configuration is conditional or not a standalone statement" config.root source
  else { p with contributions := p.contributions ++ [config.root], binding, entries }

def add (ctx : Context) (p : Plan) (config : StubConfig) : Plan :=
  if p.skipped.isSome then p
  else
    match Entry.parse ctx config.tail with
    | .error reason => p.skip reason config.root ctx.source
    | .ok entry =>
      match entry.bind (p.conflict? ctx.source) with
      | some reason => p.skip reason config.root ctx.source
      | none => p.join config entry ctx.source

/-- Some argument is compared deeply. -/
def comparesDeeply (p : Plan) : Bool :=
  p.entries.any fun e => (e.matchers.getD []).any fun m =>
    match m with
    | .deep _ => true
    | _ => false

end Plan

/-- The plans of a file by key, in the order of their first chains. -/
abbrev Plans := List (ScopeKey × Plan)

namespace Plans

/-- The plans with one more chain, given the scope it belongs to. -/
def addAt (ctx : Context) (key : ScopeKey) (scope : Span) (config : StubConfig) : Plans → Plans
  | [] => [(key, Plan.add ctx { scope } config)]
  | (k, p) :: rest =>
    if k == key then (k, p.add ctx config) :: rest else (k, p) :: addAt ctx key scope config rest

def add (ctx : Context) (plans : Plans) (config : StubConfig) : Plans :=
  addAt ctx (config.root.scopeKey config.subject config.member ctx.source)
    (config.root.scopeSpan ctx.source) config plans

/-- The key of a plan around this one that configures the same stub, whose work this one would undo. -/
def overridden? (plans : Plans) (key : ScopeKey) (plan : Plan) : Option ScopeKey := do
  guard (plan.install.isNone && plan.skipped.isNone)
  let outer ← plans.find? fun (other, p) =>
    other != key && other.subject == key.subject && other.member == key.member
      && p.skipped.isNone && !p.entries.isEmpty && p.encloses plan
  return outer.1

/-- The plans without those that would undo the work of another. -/
def withoutOverriding (source : Text) (plans : Plans) : Plans :=
  plans.map fun (key, plan) =>
    match plans.overridden? key plan, plan.contributions.head? with
    | some outer, some first =>
      (key, plan.skip ("would replace the configuration made for " ++ outer.text) first source)
    | _, _ => (key, plan)

end Plans

/-- What plans come to. -/
structure PlanOutcome where
  edits : List Edit := []
  diagnostics : List Diagnostic := []
  requires : List ModuleKind := []
deriving Inhabited

namespace PlanOutcome

def append (a b : PlanOutcome) : PlanOutcome :=
  { edits := a.edits ++ b.edits
    diagnostics := a.diagnostics ++ b.diagnostics
    requires := a.requires ++ b.requires }

end PlanOutcome

def skippedWarning (key : ScopeKey) (reason : String) (location : Location) : Diagnostic :=
  { Diagnostic.warning
      ("stub configuration for " ++ key.text ++ " left unchanged: " ++ reason) location with
    key := some key.text }

/-- The edit that installs the merged function, the contributions still to be deleted, and whether the
mock tracker is needed. -/
def Plan.installed? (ctx : Context) (key : ScopeKey) (p : Plan) :
    Option (Edit × List Site × List ModuleKind) :=
  let function := implementation ctx.names.util p.entries
  let rule := "stub-configuration"
  match p.install, p.object with
  | some install, some object =>
    let e := Expr.callPath (ctx.names.mock ++ ".method") [object.embed, .str key.member, function]
    some (.replace install.span e rule, p.contributions, [.mock])
  | some install, none =>
    let e := Expr.callPath (ctx.names.mock ++ ".fn") [function]
    some (.replace install.span e rule, p.contributions, [.mock])
  | none, _ =>
    match p.binding, p.contributions with
    | some binding, first :: rest =>
      let e := (Expr.member (.ident binding) "mock").method "mockImplementation" [function]
      some (.replace first.span e rule, rest, [])
    | _, _ => none

/-- What a plan comes to. -/
def Plan.outcome (ctx : Context) (key : ScopeKey) (p : Plan) : PlanOutcome :=
  match p.skipped with
  | some (reason, location) => { diagnostics := [skippedWarning key reason location] }
  | none =>
    match p.installed? ctx key with
    | none => {}
    | some (install, rest, requires) =>
      let deletions := rest.filterMap fun root => root.parent?.map fun statement =>
        Edit.deleteStatement ctx.source statement.span "stub-configuration-merged"
      { edits := install :: deletions
        requires := requires ++ (if p.comparesDeeply then [.util] else []) }

def Plans.outcome (ctx : Context) (plans : Plans) : PlanOutcome :=
  (plans.withoutOverriding ctx.source).foldl
    (fun o (key, plan) => o.append (plan.outcome ctx key)) {}

end TestMigration
