import TestMigration.Config.Codec
import TestMigration.Files

/-!
# Loading configurations

A configuration is named, or it is the nearest one in the directory of a run and the directories above.
It may extend another file, which may extend a further one; `load` follows such a chain and refuses one
that comes back to a file. Each step of the chain adds a file that was not on it, so the number of files
bounds it.
-/

namespace TestMigration

/-- Why there is no configuration. -/
inductive ConfigError where
  | missing (path : String)
  | unreadable (path : String) (failure : ReadFailure)
  | invalid (path : String)
  /-- The files of a chain, up to the one that is met again. -/
  | circular (chain : List String)
  /-- A file is extended by a name that is no path. -/
  | notAPath (reference from' : String)
  | baseMissing (path from' : String)
  | alreadyThere (path : String)
  | unwritable (path : String)
deriving DecidableEq, Repr, Inhabited

namespace ConfigError

def message : ConfigError → String
  | missing path => "Config file not found: " ++ path
  | unreadable path _ => "Failed to read config: " ++ path
  | invalid path => "Invalid JSON in config: " ++ path
  | circular chain => "Circular extends: " ++ String.intercalate " -> " chain
  | notAPath reference from' =>
    "extends must be a relative or absolute path, got '" ++ reference ++ "' in " ++ from'
  | baseMissing path from' =>
    "Extended config not found: " ++ path ++ " (referenced from " ++ from' ++ ")"
  | alreadyThere path => "Config already exists: " ++ path
  | unwritable path => "Failed to write config: " ++ path

/-- The message with what lies behind the error. -/
def fullMessage (e : ConfigError) : String :=
  match e with
  | unreadable _ failure => e.message ++ ": " ++ failure.message
  | _ => e.message

end ConfigError

namespace Config

def fileName : String := ".remoldrc.json"

/-- The nearest configuration file for a directory. -/
def discover? (f : Files) (dir : String) : Option String :=
  ((Path.ancestors dir).map fun d => Path.join d fileName).find? f.isFile

/-- The file that a configuration at `from'` extends. -/
def basePath (f : Files) (from' reference : String) : Except ConfigError String :=
  let relative := Text.startsWith reference.toList "./" || Text.startsWith reference.toList "../"
  if !relative && !Path.isAbsolute reference then .error (.notAPath reference from')
  else
    let named := Path.join ((Path.parent? from').getD ".") reference
    let path := if (Path.extension? named).isNone then Path.addExtension named "json" else named
    if f.isFile path then .ok path else .error (.baseMissing path from')

def readFile (f : Files) (path : String) : Except ConfigError Config :=
  match f.read path with
  | .error failure => .error (.unreadable path failure)
  | .ok text =>
    match parse? text with
    | some c => .ok c
    | none => .error (.invalid path)

/-- The configuration of a file with all that it extends. `chain` are the files met before, and the
number bounds those still to come. -/
def loadChain (f : Files) : Nat → List String → String → Except ConfigError Config
  | n, chain, path =>
    let key := (f.canonical? path).getD path
    if chain.contains key then .error (.circular (chain ++ [key]))
    else
      match readFile f path with
      | .error e => .error e
      | .ok c =>
        match c.extends?, n with
        | none, _ => .ok c
        | some _, 0 => .error (.circular (chain ++ [key]))
        | some reference, n + 1 => do
          let path ← basePath f path reference
          let base ← loadChain f n (chain ++ [key]) path
          return { c with extends? := none }.inherit base

/-- The configuration of a file with all that it extends. -/
def loadFile (f : Files) (path : String) : Except ConfigError Config :=
  loadChain f f.tree.fileCount [] path

/-- The configuration for a run in a directory: the named one, the nearest one, or the usual one. -/
def load (f : Files) (dir : String) (named : Option String) : Except ConfigError Config :=
  match named with
  | some name =>
    let path := Path.join dir name
    if f.isFile path then loadFile f path else .error (.missing path)
  | none =>
    match discover? f dir with
    | some path => loadFile f path
    | none => .ok {}

/-- The files with a new configuration file in a directory, and its path. -/
def writeStarter (f : Files) (dir : String) (c : Config) : Except ConfigError (Files × String) :=
  let path := Path.join dir fileName
  if f.holds path then .error (.alreadyThere path)
  else
    match f.write path c.fileText with
    | .ok f => .ok (f, path)
    | .error _ => .error (.unwritable path)

end Config

end TestMigration
