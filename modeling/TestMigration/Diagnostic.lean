import TestMigration.Text.Lines

/-!
# Diagnostics

What a run has to say about a place it skipped or could convert only in part. A diagnostic never
stops a run.
-/

namespace TestMigration

/-- How much a diagnostic matters. -/
inductive Severity where
  | error
  | warning
  | info
deriving DecidableEq, Repr, Inhabited

namespace Severity

def name : Severity → String
  | error => "error"
  | warning => "warning"
  | info => "info"

end Severity

/-- A message about a place; `key` groups the messages of one stub. -/
structure Diagnostic where
  severity : Severity
  message : String
  location : Location
  key : Option String := none
deriving DecidableEq, Repr, Inhabited

namespace Diagnostic

def warning (message : String) (location : Location) : Diagnostic :=
  { severity := .warning, message, location }

def info (message : String) (location : Location) : Diagnostic :=
  { severity := .info, message, location }

/-- `d` put into a list ordered by location, in front of the first later one. -/
def insertByLocation (d : Diagnostic) : List Diagnostic → List Diagnostic
  | [] => [d]
  | e :: rest =>
    if e.location.before d.location then e :: insertByLocation d rest else d :: e :: rest

/-- The diagnostics ordered by location; those of one place keep their order. -/
def sortByLocation (ds : List Diagnostic) : List Diagnostic := ds.foldr insertByLocation []

end Diagnostic

end TestMigration
