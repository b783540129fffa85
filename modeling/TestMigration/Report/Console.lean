import TestMigration.Report.Basic

/-!
# Reports for a terminal

The lines that a run prints, with colours if they are wanted.
-/

namespace TestMigration

/-! ### Colours -/

/-- A way to set off a piece of text. -/
inductive Effect where
  | bold
  | dimmed
  | red
  | green
  | yellow
  | blue
  | cyan
deriving DecidableEq, Repr, Inhabited

namespace Effect

/-- The number of an effect in an escape sequence. -/
def code : Effect → Nat
  | bold => 1
  | dimmed => 2
  | red => 31
  | green => 32
  | yellow => 33
  | blue => 34
  | cyan => 36

end Effect

/-- The sequence that ends all effects. -/
def resetSequence : String := "\x1b[0m"

/-- A text with effects, if colours are wanted. The effects begin anew behind each sequence in the text
that ends them. -/
def paint (colours : Bool) (effects : List Effect) (text : String) : String :=
  if colours then
    let start := "\x1b[" ++ String.intercalate ";" (effects.map fun e => toString e.code) ++ "m"
    let kept := Text.replaceAll resetSequence.toList (resetSequence ++ start).toList text.toList
    start ++ String.ofList kept ++ resetSequence
  else text

/-! ### Lines -/

/-- What a report shows. -/
structure Console where
  verbose : Bool := false
  /-- Only the paths of changed files. -/
  quiet : Bool := false
  colours : Bool := false
deriving DecidableEq, Repr, Inhabited

/-- What a run prints, to the standard output and to the standard error. -/
structure Printed where
  out : String := ""
  err : String := ""
deriving DecidableEq, Repr, Inhabited

/-- Each line with its end. -/
def ofLines (lines : List String) : String := String.join (lines.map (· ++ "\n"))

namespace Console

variable (c : Console)

def diagnosticLines (d : Diagnostic) : List String :=
  let icon :=
    match d.severity with
    | .error => paint c.colours [.red] "✗"
    | .warning => paint c.colours [.yellow] "⚠"
    | .info => paint c.colours [.blue] "ℹ"
  let place := paint c.colours [.dimmed] ("L" ++ d.location.text)
  let line := "   " ++ icon ++ " " ++ place ++ " " ++ d.message
  match d.key with
  | some key =>
    if c.verbose then
      [line, "       " ++ paint c.colours [.dimmed] "key" ++ " " ++ paint c.colours [.dimmed] key]
    else [line]
  | none => [line]

/-- What was or would be done with a file. -/
def status (r : FileReport) : String :=
  if r.written then paint c.colours [.bold, .green] "migrated"
  else if r.changed then paint c.colours [.bold, .yellow] "would migrate"
  else paint c.colours [.dimmed] "unchanged"

def countsLine (r : FileReport) : String :=
  let counts := r.counts.map fun (rule, n) => toString n ++ " " ++ rule
  "   " ++ paint c.colours [.dimmed] "↳" ++ " "
    ++ paint c.colours [.dimmed] (String.intercalate ", " counts)

def fileLines (r : FileReport) : List String :=
  if c.quiet then (if r.changed then [r.filePath] else [])
  else if !r.changed && r.diagnostics.isEmpty && !c.verbose then []
  else
    let shown := r.diagnostics.filter fun d => d.severity != .info || c.verbose
    (c.status r ++ " " ++ paint c.colours [.bold] r.filePath)
      :: (if r.changed then [c.countsLine r] else []) ++ shown.flatMap c.diagnosticLines

def failureLine (f : FileFailure) : String :=
  paint c.colours [.bold, .red] "error" ++ " " ++ f.filePath ++ ": " ++ f.message

/-- A line of sixty strokes. -/
def rule : String := String.ofList (List.replicate 60 '═')

def summaryLines (s : Summary) : List String :=
  let changed := toString s.changed
  let line (shown : Bool) (text : String) : List String := if shown then [text] else []
  ["", rule, paint c.colours [.bold] "Summary", rule,
    "   Files scanned:  " ++ paint c.colours [.bold] (toString s.scanned),
    "   Files changed:  " ++ (if 0 < s.changed then paint c.colours [.green] changed else changed)]
    ++ line (0 < s.written) ("   Files written:  " ++ toString s.written)
    ++ ["   Rewrites:       " ++ toString s.edits]
    ++ line (0 < s.warnings)
      ("   Warnings:       " ++ paint c.colours [.yellow] (toString s.warnings))
    ++ line (0 < s.failed) ("   Failed:         " ++ paint c.colours [.red] (toString s.failed))
    ++ line (s.written < s.changed)
      ("   " ++ paint c.colours [.cyan] "→" ++ " run with --write to apply changes")
    ++ [""]

/-- What is printed about a run. -/
def print (reports : List FileReport) (failures : List FileFailure) (summary : Summary) : Printed :=
  { out := ofLines (reports.flatMap c.fileLines ++ if c.quiet then [] else c.summaryLines summary)
    err := ofLines (failures.map c.failureLine) }

end Console

end TestMigration
