import TestMigration.Diagnostic
import TestMigration.Edit.Basic
import TestMigration.Registration.Callee
import TestMigration.Text.Ordered

/-!
# The pass over registrations

Every call that registers a test, a suite or a hook is looked at in the order of the file: names that
only the legacy runner knows are replaced, a callback with one parameter gets a context in front of it,
and a timeout set inside the callback becomes an option. `RegistrationUsage` says what is needed of the
test module afterwards.
-/

namespace TestMigration

/-- What the registrations of a file need. -/
structure RegistrationUsage where
  /-- Names of the test module that the file calls, in order. -/
  names : List String := []
  /-- Some call registers something. -/
  found : Bool := false
  /-- How many changes were made. -/
  changes : Nat := 0
deriving DecidableEq, Repr, Inhabited

namespace Registration

/-- Some changes of a call, with the warnings about it. -/
structure Change where
  edits : List Edit := []
  changes : Nat := 0
  diagnostics : List Diagnostic := []
deriving Inhabited

namespace Change

def append (a b : Change) : Change :=
  { edits := a.edits ++ b.edits
    changes := a.changes + b.changes
    diagnostics := a.diagnostics ++ b.diagnostics }

def one (edits : List Edit) : Change := { edits, changes := 1 }

end Change

/-! ### Names -/

/-- What the test module calls a registration, perhaps with a modifier. -/
def renamed (base : String) : String :=
  match base with
  | "context" => "describe"
  | "specify" => "it"
  | "xit" | "xspecify" => "it.skip"
  | "xtest" => "test.skip"
  | "xdescribe" | "xcontext" => "describe.skip"
  | other => other

/-- The name that has to be imported for a registration. -/
def importedName (base : String) : String :=
  String.ofList ((renamed base).toList.takeWhile (· != '.'))

/-- The new name of a call without modifier. -/
def rename (call : Site) (callee : Callee) : Change :=
  match callee.modifier, call.child? .callee with
  | none, some f =>
    if renamed callee.base == callee.base then {}
    else .one [.replaceText f.span (renamed callee.base) "registration-rename"]
  | _, _ => {}

/-! ### Callbacks -/

/-- A context in front of the only parameter of a callback, so that the parameter stays the one that
reports the end. -/
def contextParameter (source : Text) (callback : Site) : Change :=
  match callback.functionParameters with
  | [parameter] =>
    let context := if parameter.parameterName? source == some "t" then "_t" else "t"
    if (callback.child? .parameter).isSome then
      .one [.replaceText parameter.span
        ("(" ++ context ++ ", " ++ parameter.text source ++ ")") "context-parameter"]
    else .one [.insert parameter.span.start (context ++ ", ") "context-parameter"]
  | _ => {}

/-- The method of `this` that a statement calls, with its arguments. -/
def thisCall? (source : Text) (statement : Site) : Option (String × List Site) := do
  guard (statement.kind == .expressionStatement)
  let call ← statement.children.head?
  let f ← call.child? .callee
  guard (call.kind == .call && f.kind == .member)
  let object ← f.child? .object
  let property ← f.child? .property
  guard (object.kind == .thisKeyword)
  return (property.text source, call.callArguments)

/-- The edits for a timeout of `value`, which a statement of the callback sets. No option is added for
no limit, nor to a call that has options. -/
def timeoutEdits (source : Text) (registers : Registration) (callback : Site) (hasOptions : Bool)
    (statement : Site) (value : String) : List Edit :=
  let deletion := Edit.deleteStatement source statement.span "timeout-option"
  let option := "\x7b timeout: " ++ value ++ " \x7d"
  if value == "0" || hasOptions then [deletion]
  else if registers == .hook then
    [deletion, .insert callback.span.stop (", " ++ option) "timeout-option"]
  else [deletion, .insert callback.span.start (option ++ ", ") "timeout-option"]

/-- What the statements of a callback ask of the runner. Only the first timeout counts. -/
def runnerCalls (source : Text) (registers : Registration) (callback : Site) (hasOptions : Bool) :
    Bool → List Site → Change
  | _, [] => {}
  | applied, statement :: rest =>
    match thisCall? source statement with
    | some ("timeout", [value]) =>
      if applied then runnerCalls source registers callback hasOptions applied rest
      else
        (Change.one (timeoutEdits source registers callback hasOptions statement
          (value.text source))).append
          (runnerCalls source registers callback hasOptions true rest)
    | some ("retries", _) =>
      Change.append
        { diagnostics := [.warning "this.retries has no node:test equivalent; left unchanged"
            (statement.location source)] }
        (runnerCalls source registers callback hasOptions applied rest)
    | _ => runnerCalls source registers callback hasOptions applied rest

/-- The changes of the callback of a registration. -/
def callbackChange (source : Text) (registers : Registration) (args : List Site) (callback : Site) :
    Change :=
  let parameter := if registers == .suite then {} else contextParameter source callback
  -- `this` of an arrow function is not the runner's
  if callback.kind == .arrowFunction then parameter
  else
    parameter.append (runnerCalls source registers callback (args.any (·.kind == .object)) false
      callback.bodyStatements)

/-- The changes of a call that registers something. -/
def callChange (source : Text) (call : Site) (callee : Callee) : Change :=
  let args := call.callArguments
  match args.reverse.find? (·.isFunctionLiteral) with
  | some callback =>
    (rename call callee).append (callbackChange source callee.registers args callback)
  | none => rename call callee

end Registration

/-! ### The pass -/

/-- State of the pass. -/
structure RegistrationPass where
  edits : List Edit := []
  usage : RegistrationUsage := {}
  diagnostics : List Diagnostic := []
deriving Inhabited

namespace RegistrationPass

/-- The pass after one more call. A call that an edit covers is gone already. -/
def addCall (source : Text) (p : RegistrationPass) (call : Site) : RegistrationPass :=
  match call.registration? source with
  | none => p
  | some callee =>
    if Edit.covers p.edits call.span then p
    else
      let change := Registration.callChange source call callee
      { edits := p.edits ++ change.edits
        usage :=
          { names := insertName (Registration.importedName callee.base) p.usage.names
            found := true
            changes := p.usage.changes + change.changes }
        diagnostics := p.diagnostics ++ change.diagnostics }

/-- The pass over a tree, behind the edits that were found before. -/
def ofTree (source : Text) (tree : Node) (edits : List Edit) : RegistrationPass :=
  (tree.sites.filter (·.kind == .call)).foldl (addCall source) { edits }

end RegistrationPass

end TestMigration
