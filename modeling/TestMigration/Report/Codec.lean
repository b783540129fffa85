import TestMigration.Config.Codec
import TestMigration.Report.Basic

/-!
# Reports as JSON

Reports are written with their fields in a fixed order and read back by key.
-/

namespace TestMigration

open JsonValue

namespace Severity

def all : List Severity := [error, warning, info]

end Severity

namespace Location

def encode (l : Location) : JsonValue :=
  .object [("line", .natural l.line), ("column", .natural l.column),
    ("endLine", naturalOrNull l.endLine), ("endColumn", naturalOrNull l.endColumn)]

def decode? (v : JsonValue) : Option Location := do
  match ← record? ["line", "column", "endLine", "endColumn"] 4 v with
  | [line, column, endLine, endColumn] =>
    return {
      line := ← required? natural? line
      column := ← required? natural? column
      endLine := ← maybe? natural? endLine
      endColumn := ← maybe? natural? endColumn }
  | _ => none

end Location

namespace Diagnostic

def encode (d : Diagnostic) : JsonValue :=
  .object ([("severity", .string d.severity.name), ("message", .string d.message),
    ("location", d.location.encode)] ++ optionalField "key" .string d.key)

def decode? (v : JsonValue) : Option Diagnostic := do
  match ← record? ["severity", "message", "location", "key"] 3 v with
  | [severity, message, location, key] =>
    return {
      severity := ← required? (oneOf? Severity.all Severity.name) severity
      message := ← required? string? message
      location := ← required? Location.decode? location
      key := ← maybe? string? key }
  | _ => none

end Diagnostic

namespace Counts

def encode (c : Counts) : JsonValue := .object (c.map fun (name, n) => (name, .natural n))

/-- The counts with the number of a name set. -/
def put (name : String) (n : Nat) : Counts → Counts
  | [] => [(name, n)]
  | (other, old) :: rest =>
    if name == other then (name, n) :: rest
    else if name < other then (name, n) :: (other, old) :: rest
    else (other, old) :: put name n rest

/-- The counts that fields describe; of a repeated name the last number counts. -/
def ofFields? (c : Counts) : List (String × JsonValue) → Option Counts
  | [] => some c
  | (name, v) :: rest => do
    let n ← natural? v
    ofFields? (put name n c) rest

def decode? : JsonValue → Option Counts
  | .object fields => ofFields? [] fields
  | _ => none

end Counts

namespace FileReport

def encode (r : FileReport) : JsonValue :=
  .object [("filePath", .string r.filePath), ("migrations", arrayOf Migration.encode r.migrations),
    ("changed", .bool r.changed), ("written", .bool r.written), ("rewrites", r.counts.encode),
    ("diagnostics", arrayOf Diagnostic.encode r.diagnostics)]

/-- The keys of a report. -/
def keys : List String :=
  ["filePath", "migrations", "changed", "written", "rewrites", "diagnostics"]

def decode? (v : JsonValue) : Option FileReport := do
  match ← record? keys 6 v with
  | [filePath, migrations, changed, written, counts, diagnostics] =>
    return {
      filePath := ← required? string? filePath
      migrations := ← required? (list? Migration.decode?) migrations
      changed := ← required? bool? changed
      written := ← defaulted? bool? false written
      counts := ← required? Counts.decode? counts
      diagnostics := ← required? (list? Diagnostic.decode?) diagnostics }
  | _ => none

end FileReport

namespace FileFailure

def encode (f : FileFailure) : JsonValue :=
  .object [("filePath", .string f.filePath), ("message", .string f.message)]

end FileFailure

namespace Summary

def encode (s : Summary) : JsonValue :=
  .object [("filesScanned", .natural s.scanned), ("filesChanged", .natural s.changed),
    ("filesWritten", .natural s.written), ("filesFailed", .natural s.failed),
    ("totalRewrites", .natural s.edits), ("warnings", .natural s.warnings)]

end Summary

/-- The whole report of a run as an object; failures are left out when there are none. -/
def encodeRun (reports : List FileReport) (failures : List FileFailure) (summary : Summary) :
    JsonValue :=
  let failed := if failures.isEmpty then none else some failures
  .object ([("results", arrayOf FileReport.encode reports)]
    ++ optionalField "failures" (arrayOf FileFailure.encode) failed
    ++ [("summary", summary.encode)])

end TestMigration
