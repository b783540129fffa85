import TestMigration.Diagnostic
import TestMigration.Edit.Apply
import TestMigration.Migration

/-!
# Reports

What a run has to tell about each file, about the files it could not migrate, and in sum.
-/

namespace TestMigration

/-- What a run did with a file. -/
structure FileReport where
  filePath : String
  migrations : List Migration
  changed : Bool
  /-- The new text was written back. -/
  written : Bool := false
  /-- Number of edits of each rule. -/
  counts : Counts
  diagnostics : List Diagnostic
deriving DecidableEq, Repr, Inhabited

/-- A file that could not be migrated. -/
structure FileFailure where
  filePath : String
  message : String
deriving DecidableEq, Repr, Inhabited

/-- Sums over all files. -/
structure Summary where
  scanned : Nat := 0
  changed : Nat := 0
  written : Nat := 0
  failed : Nat := 0
  edits : Nat := 0
  warnings : Nat := 0
deriving DecidableEq, Repr, Inhabited

namespace Summary

/-- The sums of some reports and failures. -/
def ofReports (reports : List FileReport) (failures : List FileFailure) : Summary :=
  { scanned := reports.length + failures.length
    changed := reports.countP (·.changed)
    written := reports.countP (·.written)
    failed := failures.length
    edits := reports.foldr (fun report sum => report.counts.total + sum) 0
    warnings := (reports.flatMap (·.diagnostics)).countP (·.severity == .warning) }

end Summary

end TestMigration
