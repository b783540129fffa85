import TestMigration.Config.Selection
import TestMigration.Files
import TestMigration.Report.Basic

/-!
# Migrating several files

`Batch.run` migrates files one after the other. `Workers` migrate them side by side: each file has a task, a
task takes one step at a time, and in between the other tasks take theirs. Steps read a file, work out its
new text or write it; all tasks share the files. The results come in the order of the paths in both ways.

A file that fails keeps its contents. Where a text stops making sense is for the parser to say; `stop` stands
for its answer.
-/

namespace TestMigration

/-! ### One file -/

/-- Why a file could not be migrated. -/
inductive MigrateError where
  | unreadable (path : String) (failure : ReadFailure)
  | unwritable (path : String) (failure : WriteFailure)
  | syntaxError (path : String) (place : Location)
deriving DecidableEq, Repr, Inhabited

namespace MigrateError

def message : MigrateError → String
  | unreadable path failure => "failed to read " ++ path ++ ": " ++ failure.message
  | unwritable path failure => "failed to write " ++ path ++ ": " ++ failure.message
  | syntaxError path place =>
    path ++ " has a syntax error at " ++ place.text ++ "; file left untouched"

end MigrateError

variable (stop : Grammar → Text → Nat)

/-- The error for a source that the grammar of its path does not accept. -/
def MigrateError.ofSource (path source : String) : MigrateError :=
  let text : Text := source.toList
  .syntaxError path (text.locationAt (stop (Grammar.ofPath path) text))

def Outcome.report (o : Outcome) (path : String) (written : Bool) : FileReport :=
  { filePath := path, migrations := o.migrations, changed := o.changed, written
    counts := o.counts, diagnostics := o.diagnostics }

/-- The files after one of them was migrated, with its report. Only a changed file is written. -/
def migrateFile (c : Config) (write : Bool) (f : Files) (path : String) :
    Except MigrateError (Files × FileReport) :=
  match f.read path with
  | .error failure => .error (.unreadable path failure)
  | .ok source =>
    match migrate (c.settingsFor path) path source with
    | none => .error (.ofSource stop path source)
    | some o =>
      if write && o.changed then
        match f.write path o.output with
        | .ok f => .ok (f, o.report path true)
        | .error failure => .error (.unwritable path failure)
      else .ok (f, o.report path false)

/-! ### One after the other -/

/-- What migrating several files gives. -/
structure Batch where
  files : Files
  reports : List FileReport := []
  failures : List FileFailure := []
deriving Inhabited

namespace Batch

def add (c : Config) (write : Bool) (b : Batch) (path : String) : Batch :=
  match migrateFile stop c write b.files path with
  | .ok (files, report) => { b with files, reports := b.reports ++ [report] }
  | .error e => { b with failures := b.failures ++ [{ filePath := path, message := e.message }] }

/-- Several files, one after the other. -/
def run (c : Config) (write : Bool) (f : Files) (paths : List String) : Batch :=
  paths.foldl (add stop c write) { files := f }

end Batch

/-! ### Side by side -/

/-- How far the migration of a file has come. -/
inductive Stage where
  | waiting
  /-- The file was read. -/
  | holding (source : String)
  /-- The file has a new text that is to be written. -/
  | writing (o : Outcome)
  | done (result : Except MigrateError FileReport)
deriving Inhabited

/-- The next step of a task, and the files after it. -/
def Stage.step (c : Config) (write : Bool) (path : String) (f : Files) : Stage → Files × Stage
  | waiting =>
    match f.read path with
    | .error failure => (f, done (.error (.unreadable path failure)))
    | .ok source => (f, holding source)
  | holding source =>
    match migrate (c.settingsFor path) path source with
    | none => (f, done (.error (.ofSource stop path source)))
    | some o => (f, if write && o.changed then writing o else done (.ok (o.report path false)))
  | writing o =>
    match f.write path o.output with
    | .ok f => (f, done (.ok (o.report path true)))
    | .error failure => (f, done (.error (.unwritable path failure)))
  | done result => (f, done result)

/-- A file that is to be migrated. -/
structure Task where
  path : String
  stage : Stage := .waiting
deriving Inhabited

namespace Task

/-- What the migration came to, once it is done. -/
def result? (t : Task) : Option (Except MigrateError FileReport) :=
  match t.stage with
  | .done result => some result
  | _ => none

/-- The report, once the file is migrated. -/
def report? (t : Task) : Option FileReport := t.result?.bind (·.toOption)

/-- The failure, once there is one. -/
def failure? (t : Task) : Option FileFailure :=
  match t.result? with
  | some (.error e) => some { filePath := t.path, message := e.message }
  | _ => none

end Task

/-- The tasks of several files, in the order of their paths, and the files they share. -/
structure Workers where
  files : Files
  tasks : List Task
deriving Inhabited

namespace Workers

/-- Before the first step. -/
def start (f : Files) (paths : List String) : Workers :=
  { files := f, tasks := paths.map fun path => { path } }

/-- One step of the task with a number. -/
def step (c : Config) (write : Bool) (w : Workers) (i : Nat) : Workers :=
  match w.tasks[i]? with
  | none => w
  | some t =>
    let next := t.stage.step stop c write t.path w.files
    { files := next.1, tasks := w.tasks.set i { t with stage := next.2 } }

/-- The steps of a schedule, which says whose turn it is. -/
def run (c : Config) (write : Bool) (w : Workers) (schedule : List Nat) : Workers :=
  schedule.foldl (step stop c write) w

/-- All tasks are done. -/
def finished (w : Workers) : Bool := w.tasks.all fun t => t.result?.isSome

/-- What the tasks came to, in the order of the paths. -/
def batch (w : Workers) : Batch :=
  { files := w.files
    reports := w.tasks.filterMap Task.report?
    failures := w.tasks.filterMap Task.failure? }

end Workers

/-- Several files side by side: all are read, then all new texts are worked out, then all are written. -/
def Batch.runParallel (c : Config) (write : Bool) (f : Files) (paths : List String) : Batch :=
  let round := List.range paths.length
  ((Workers.start f paths).run stop c write (round ++ round ++ round)).batch

end TestMigration
