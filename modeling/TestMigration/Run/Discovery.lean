import TestMigration.Rule.Catalog

/-!
# Discovery

The first pass of a run looks at every chain of the file once and notes what the first rule that
recognises it asks for. Edits are collected here and applied at the very end.
-/

namespace TestMigration

/-- What a run has found so far. -/
structure Run where
  /-- The edits in the order of their discovery. -/
  edits : List Edit := []
  /-- The configurations of stubs, by stub and scope. -/
  plans : Plans := []
  /-- Declarations to delete once the names they bind have no other use. -/
  declarations : List (Site × String) := []
  /-- Statements that set up an assertion library. -/
  setup : List Site := []
  /-- What generated code needs. -/
  requires : List ModuleKind := []
  /-- The migrations that changed something. -/
  touched : List Migration := []
  diagnostics : List Diagnostic := []
deriving Inhabited

namespace Run

/-- The run after something was asked for a chain. -/
def add (ctx : Context) (r : Run) (root : Site) (m : Migration) (rule : Rule) : Synthesis → Run
  | .replace target e =>
    { r with
      edits := r.edits ++ [.replace target.span e rule.name]
      requires := r.requires ++ rule.requires
      touched := r.touched ++ [m] }
  | .removeSetup statement =>
    { r with setup := r.setup ++ [statement], touched := r.touched ++ [m] }
  | .removeStatement statement =>
    { r with
      edits := r.edits ++ [.deleteStatement ctx.source statement.span rule.name]
      touched := r.touched ++ [m] }
  | .removeDeclaration statement binding =>
    { r with declarations := r.declarations ++ [(statement, binding)] }
  | .configure config =>
    { r with plans := r.plans.add ctx config, touched := r.touched ++ [m] }
  | .skip reason =>
    { r with
      diagnostics := r.diagnostics
        ++ [.warning (rule.name ++ ": " ++ reason) (root.location ctx.source)] }

def visit (ctx : Context) (migrations : List Migration) (r : Run) (root : Site) : Run :=
  let chain := Chain.walk ctx.source root
  let found := migrations.findSome? fun m => (m.findRule? ctx chain).map fun f => (m, f)
  match found with
  | some (m, rule, synthesis) => r.add ctx root m rule synthesis
  | none => r

def discover (ctx : Context) (migrations : List Migration) (tree : Node) : Run :=
  (tree.sites.filter (·.isCandidate)).foldl (visit ctx migrations) {}

/-- The run with the stubs installed. -/
def finishStubs (ctx : Context) (r : Run) : Run :=
  let outcome := r.plans.outcome ctx
  { r with
    edits := r.edits ++ outcome.edits
    requires := r.requires ++ outcome.requires
    diagnostics := r.diagnostics ++ outcome.diagnostics }

end Run

end TestMigration
