import TestMigration.Import.Reference
import TestMigration.Run.Discovery
import TestMigration.Text.Ordered

/-!
# Removing sandboxes

All declarations of a sandbox go together, once nothing else uses its name: those that give it its
value, and those that only declare it.
-/

namespace TestMigration

/-- The statement and its variable, if it declares one variable without a value. -/
def Site.uninitialized? (s : Site) (source : Text) : Option (Site × String) := do
  guard (s.kind == .lexicalDeclaration || s.kind == .variableDeclaration)
  match s.declarators with
  | [declarator] =>
    let name ← declarator.child? .name
    guard (declarator.child? .value).isNone
    return (s, name.text source)
  | _ => none

/-- The statement of a hook whose callback does nothing but this statement. -/
def Site.emptiedHook? (s : Site) (source : Text) : Option Site := do
  let f ← s.parent?.bind (·.parent?)
  guard f.isFunctionLiteral
  guard (f.bodyStatements.map (·.span) == [s.span])
  let call ← f.parent?.bind (·.parent?)
  let callee ← call.registration? source
  guard (callee.registers == .hook)
  call.parentOf? .expressionStatement

namespace Run

/-- The run without the declarations of one sandbox, if nothing else uses it. -/
def removeSandbox (ctx : Context) (tree : Node) (declarations : List (Site × String)) (r : Run)
    (binding : String) : Run :=
  let statements := (declarations.filter (·.2 == binding)).map (·.1)
  if isStillReferenced ctx.source tree binding (statements.map (·.span)) r.edits then
    let warnings := statements.head?.map fun first =>
      Diagnostic.warning ("sandbox '" ++ binding ++ "' kept: it is still used")
        (first.location ctx.source)
    { r with diagnostics := r.diagnostics ++ warnings.toList }
  else
    let deletions := statements.map fun s =>
      Edit.deleteStatement ctx.source ((s.emptiedHook? ctx.source).getD s).span "sandbox-creation"
    { r with edits := r.edits ++ deletions, touched := r.touched ++ [.mocks] }

/-- The run without the sandboxes that nothing uses any more. -/
def removeSandboxes (ctx : Context) (tree : Node) (r : Run) : Run :=
  let open' := (tree.sites.filterMap (·.uninitialized? ctx.source)).filter fun (_, name) =>
    ctx.mocks.sandboxes.contains name
  let declarations := r.declarations ++ open'
  (orderNames (declarations.map (·.2))).foldl (removeSandbox ctx tree declarations) r

end Run

end TestMigration
