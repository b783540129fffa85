import TestMigration.CommandLine.Arguments
import TestMigration.CommandLine.Batch
import TestMigration.CommandLine.Usage
import TestMigration.Config.Load
import TestMigration.Report.Codec
import TestMigration.Report.Console

/-!
# Running a command

A command turns the files it finds into a result: an exit code, what is printed, and the files
afterwards. More than a few files are migrated side by side, all others one after the other. `stop` says
where a text that cannot be parsed is wrong; `perform` takes the place at which the reader stops.
-/

namespace TestMigration

/-- The name of directories that are never looked into. -/
def isForeign (name : String) : Bool := name == "node_modules"

/-- The name of a path ends as the name of a test file does, and nothing on the path is foreign. -/
def isTestFile (patterns : List String) (path : String) : Bool :=
  match Path.fileName? path with
  | some name =>
    !(Path.components path).any (fun c => isForeign c.text)
      && patterns.any fun p => Text.endsWith name.toList p
  | none => false

/-! ### Results -/

/-- Why a command came to nothing. -/
inductive RunError where
  | config (e : ConfigError)
  | invalidPattern (pattern : String)
  | pathMissing (path : String)
  | notAFile (path : String)
  | unreadable (path : String) (failure : ReadFailure)
  | migration (e : MigrateError)
  | directoryMissing (dir : String)
deriving DecidableEq, Repr, Inhabited

namespace RunError

def message : RunError → String
  | config e => e.fullMessage
  | invalidPattern pattern => Config.invalidPatternMessage pattern
  | pathMissing path => "Path does not exist: " ++ path
  | notAFile path => "--print needs a single file: " ++ path
  | unreadable path failure => "Failed to read " ++ path ++ ": " ++ failure.message
  | migration e => e.message
  | directoryMissing dir => "Directory does not exist: " ++ dir

end RunError

/-- What a command comes to. -/
structure RunResult where
  code : Nat
  printed : Printed
  files : Files
deriving Inhabited

/-- A result that only prints. -/
def RunResult.of (f : Files) (code : Nat) (out err : String) : RunResult :=
  { code, printed := { out, err }, files := f }

namespace Command

variable (colours : Bool) (stop : Grammar → Text → Nat)

/-! ### Migrating -/

/-- The directory in which the configuration for a path is looked for. -/
def workDirectory (f : Files) (path : String) : String :=
  if f.isFile path then (Path.parent? path).getD "." else path

def configFor (f : Files) (a : RunArguments) : Except RunError Config :=
  match Config.load f (workDirectory f a.path) a.config with
  | .ok c => .ok (c.select a.migrations)
  | .error e => .error (.config e)

/-- The test files at and below a path, in order. A path of a file stands for itself. -/
def testFiles (f : Files) (c : Config) (path : String) : Except RunError (List String) :=
  match Config.ignorePatterns c.ignore with
  | .error pattern => .error (.invalidPattern pattern)
  | .ok ignored =>
    if f.isFile path then .ok (if isIgnored ignored path then [] else [path])
    else if f.isDirectory path then
      .ok (Path.sort ((f.walk isForeign path).filter fun p =>
        isTestFile c.testFilePatterns p && !isIgnored ignored p))
    else .error (.pathMissing path)

def allFailed (b : Batch) : RunResult :=
  let label := paint colours [.red] "Error"
  .of b.files 2 "" (ofLines
    (b.failures.map (fun x => label ++ ": " ++ x.filePath ++ ": " ++ x.message)
      ++ [label ++ ": All files failed to migrate"]))

def reported (a : RunArguments) (b : Batch) : RunResult :=
  let summary := Summary.ofReports b.reports b.failures
  let code := if a.check && summary.written < summary.changed then 1 else 0
  let printed : Printed :=
    if a.json then { out := (encodeRun b.reports b.failures summary).print .pretty ++ "\n" }
    else
      let console : Console := { verbose := a.verbose, quiet := a.quiet, colours }
      console.print b.reports b.failures summary
  { code, printed, files := b.files }

/-- Migrate all test files at and below a path. -/
def runAll (f : Files) (c : Config) (a : RunArguments) : Except RunError RunResult := do
  match ← testFiles f c a.path with
  | [] => return .of f 2 "" (paint colours [.yellow] "Warning" ++ ": No test files found\n")
  | paths =>
    let b := if a.parallel || 10 < paths.length then Batch.runParallel stop c a.write f paths
      else Batch.run stop c a.write f paths
    return if b.reports.isEmpty then allFailed colours b else reported colours a b

def runPrint (f : Files) (c : Config) (path : String) : Except RunError RunResult :=
  if !f.isFile path then .error (.notAFile path)
  else
    match f.read path with
    | .error failure => .error (.unreadable path failure)
    | .ok source =>
      match migrate (c.settingsFor path) path source with
      | none => .error (.migration (.ofSource stop path source))
      | some o => .ok (.of f 0 o.output (ofLines (o.diagnostics.map fun d =>
          path ++ ":" ++ d.location.text ++ ": " ++ d.message)))

def runInit (f : Files) (dir : Option String) (migrations : Option (List Migration)) :
    Except RunError RunResult :=
  let dir := dir.getD "."
  let c := Config.starter migrations
  if !f.isDirectory dir then .error (.directoryMissing dir)
  else
    match Config.writeStarter f dir c with
    | .error e => .error (.config e)
    | .ok (f, path) =>
      let enabled := String.intercalate "," (c.enabled.map Migration.name)
      .ok (.of f 0 (paint colours [.bold, .green] "Done" ++ ": Created " ++ path
        ++ " with migrations=" ++ enabled ++ "\n") "")

/-- What a command comes to, unless it fails. -/
def execute (f : Files) : Command → Except RunError RunResult
  | .run a => do
    let c ← configFor f a
    if a.print then runPrint stop f c a.path else runAll colours stop f c a
  | .init dir migrations => runInit colours f dir migrations
  | .help => .ok (.of f 0 helpText "")
  | .initHelp => .ok (.of f 0 initHelpText "")
  | .version => .ok (.of f 0 versionText "")

/-- What a command comes to. -/
def perform (f : Files) (c : Command) : RunResult :=
  match c.execute colours Grammar.stop f with
  | .ok r => r
  | .error e => .of f 2 "" (paint colours [.bold, .red] "Error" ++ ": " ++ e.message ++ "\n")

end Command

end TestMigration
