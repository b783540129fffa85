import TestMigration.Edit.Apply
import TestMigration.Grammar.Source
import TestMigration.Import.Plan
import TestMigration.Registration.Pass
import TestMigration.Run.Leftovers
import TestMigration.Run.Sandboxes
import TestMigration.Style.Choice
import TestMigration.Style.Detect

/-!
# Migrating a file

`migrate` parses a source, lets all passes collect edits, and applies them once. Every pass sees the
edits found before it, and no pass sees text that an edit made.
-/

namespace TestMigration

/-- What is asked for a file. -/
structure Settings where
  /-- The enabled migrations, in the order in which their catalogs are tried. -/
  migrations : List Migration := Migration.all
  targets : Targets := {}
  style : StyleChoice := {}
deriving DecidableEq, Repr, Inhabited

/-- What a run makes of a file. -/
structure Outcome where
  /-- The new source; the old one when nothing was found. -/
  output : String
  changed : Bool
  migrations : List Migration
  /-- Number of edits of each rule. -/
  counts : Counts
  diagnostics : List Diagnostic
deriving Repr, Inhabited

/-- The grammar that a file is read with: markup in files whose extension says so. -/
def Grammar.ofPath (path : String) : Grammar :=
  match Path.extension path with
  | "tsx" | "jsx" => .markup
  | _ => .plain

namespace Run

/-- The run after the pass over registrations, with the names that have to be imported. -/
def register (source : Text) (tree : Node) (scan : ImportScan) (settings : Settings) (r : Run) :
    Run × List String :=
  if settings.migrations.contains .registration then
    let pass := RegistrationPass.ofTree source tree r.edits
    let r := { r with edits := pass.edits, diagnostics := r.diagnostics ++ pass.diagnostics }
    if pass.usage.found then
      let names := pass.usage.names
      let names := if (scan.find? settings.targets.test).isSome then names
        else insertName "it" (insertName "describe" names)
      ({ r with touched := r.touched ++ [.registration], requires := r.requires ++ [.test] }, names)
    else (r, [])
  else (r, [])

/-- The run with the setup of assertion libraries deleted when nothing is pending, and otherwise
remarked on. -/
def removeSetup (source : Text) (pending : List Leftover) (r : Run) : Run :=
  match r.setup with
  | [] => r
  | first :: rest =>
    if pending.isEmpty then
      { r with
        edits := r.edits ++ (first :: rest).map fun s =>
          .deleteStatement source s.span "assertion-setup" }
    else
      { r with
        diagnostics := r.diagnostics ++
          [.info "assertion library setup kept: some assertions were left unchanged"
            (first.location source)] }

/-- The run with a warning for each leftover. -/
def reportLeftovers (source : Text) (remaining : List Leftover) (r : Run) : Run :=
  { r with
    diagnostics := r.diagnostics ++ remaining.map fun l =>
      .warning ("left unchanged: " ++ l.excerpt) (source.locationAt l.span.start) }

/-- What imports have to provide after the run. Libraries that work by being loaded stay as long as
`should` is accessed somewhere. -/
def importRequest (r : Run) (testNames : List String) (keepShould : Bool) : ImportRequest :=
  let touched := Migration.declared.filter r.touched.contains
  { modules := r.requires
    testNames
    legacy := (touched.flatMap Migration.legacyModules).filter fun m =>
      !(keepShould && (m == "should" || m == "chai")) }

end Run

/-- The names that declarations of legacy modules bind, apart from those imported anew. -/
def legacyNames (scan : ImportScan) (migrations : List Migration) (testNames : List String) :
    List String :=
  let modules := migrations.flatMap Migration.legacyModules
  let declared := scan.declarations.filter fun d => modules.contains d.logical
  (declared.flatMap Declaration.locals).filter fun name => !testNames.contains name

/-- What a run makes of a parsed file. -/
def migrateTree (settings : Settings) (path : String) (source : Text) (tree : Node) : Outcome :=
  let scan := ImportScan.ofTree source tree
  let names := scan.names settings.targets
  let mocks := if settings.migrations.contains .mocks then MockBindings.ofTree source names tree
    else {}
  let ctx : Context := { source, names, mocks }
  let run := Run.discover ctx settings.migrations tree
  let run := run.finishStubs ctx
  let run := run.removeSandboxes ctx tree
  let (run, testNames) := run.register source tree scan settings
  let legacy := legacyNames scan settings.migrations testNames
  let declared := scan.declarations.map (·.statement.span)
  let pending := leftovers source tree legacy (run.setup.map (·.span) ++ declared) run.edits
  let run := run.removeSetup source pending
  let run := run.reportLeftovers source (leftovers source tree legacy declared run.edits)
  let style := settings.style.apply (Style.detect source tree)
  let planner : ImportPlanner :=
    { scan, names, targets := settings.targets, dialect := scan.dialect path, style }
  let request := run.importRequest testNames (pending.any (·.accessesShould))
  let (edits, warnings) := planner.plan source tree request run.edits
  let applied := applyEdits source style edits
  { output := applied.output
    changed := applied.output.toList != source
    migrations := settings.migrations
    counts := applied.counts
    diagnostics :=
      Diagnostic.sortByLocation (run.diagnostics ++ warnings ++ applied.diagnostics) }

/-- What a run makes of a source; nothing when the source has a syntax error. -/
def migrate (settings : Settings) (path source : String) : Option Outcome :=
  (Grammar.parse (Grammar.ofPath path) source.toList).map
    (migrateTree settings path source.toList)

end TestMigration
