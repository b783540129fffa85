import TestMigration.CommandLine.Run

/-!
# The command line

The program reads the files below its working directory, performs the command on them, and writes back
what has changed.
-/

namespace TestMigration

/-- The files at and below a directory entry, with the names that lead to those which may not be
written. -/
partial def readTree (above : List String) (entry : IO.FS.DirEntry) :
    IO (FileTree × List (List String)) := do
  let place := above ++ [entry.fileName]
  if ← entry.path.isDir then
    let (entries, readOnly) ← readEntries place (← entry.path.readDir).toList
    return (.directory entries, readOnly)
  else
    let bytes ← IO.FS.readBinFile entry.path
    let writable ← try
        let _ ← IO.FS.Handle.mk entry.path .readWrite
        pure true
      catch _ => pure false
    return (.file (.ofBytes bytes), if writable then [] else [place])
where
  readEntries (above : List String) (entries : List IO.FS.DirEntry) :
      IO (List (String × FileTree) × List (List String)) := do
    let trees ← entries.mapM fun e => do return (e.fileName, ← readTree above e)
    return (trees.map fun (name, tree, _) => (name, tree), trees.flatMap fun (_, _, places) => places)

def readFiles : IO Files := do
  let home ← IO.currentDir
  let (entries, readOnly) ← readTree.readEntries [] (← home.readDir).toList
  return { home := home.toString, tree := .directory entries, readOnly }

/-- Print what a command prints and write back the files that it changed. -/
def finish (before : Files) (r : RunResult) : IO UInt32 := do
  for (path, text) in r.files.changesSince before do
    IO.FS.writeFile path text
  IO.print r.printed.out
  IO.eprint r.printed.err
  return r.code.toUInt32

end TestMigration

open TestMigration in
/-- Perform the command that the arguments make. -/
def main (args : List String) : IO UInt32 := do
  match Command.parse args with
  | .error e =>
    IO.eprint ("error: " ++ e.message ++ "\n\n" ++ Command.usageText
      ++ "\nFor more information, try '--help'.\n")
    return 2
  | .ok command =>
    let files ← readFiles
    let plain := (← IO.getEnv "NO_COLOR").isSome
    let colours := !plain && (← (← IO.getStdout).isTty)
    finish files (command.perform colours files)
