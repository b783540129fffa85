import TestMigration.Json.Value
import TestMigration.Migration

/-!
# Arguments of the command line

`Command.parse` reads the words of a command line. Options are flags or take a value, which is the rest
of their own word or the next word. A name of a subcommand counts only before everything else.
-/

namespace TestMigration

/-! ### Options in general -/

/-- Why a command line is refused. -/
inductive UsageError where
  | unexpected (word : String)
  | valueMissing (option : String)
  | valueRefused (option value : String)
  | repeated (option : String)
  | conflict (first second : String)
  | pathMissing
deriving DecidableEq, Repr, Inhabited

namespace UsageError

def message : UsageError → String
  | unexpected word => "unexpected argument '" ++ word ++ "' found"
  | valueMissing option => "a value is required for '--" ++ option ++ "' but none was supplied"
  | valueRefused option value => "invalid value '" ++ value ++ "' for '--" ++ option ++ "'"
  | repeated option => "the argument '--" ++ option ++ "' cannot be used multiple times"
  | conflict first second =>
    "the argument '--" ++ first ++ "' cannot be used with '--" ++ second ++ "'"
  | pathMissing => "the following required arguments were not provided: <PATH>"

end UsageError

/-- An option of a command. -/
structure OptionSpec where
  /-- The name behind two hyphens. -/
  long : String
  /-- The letter behind one hyphen. -/
  short : Option Char := none
  /-- Which values the option takes; none for a flag. -/
  accepts : Option (String → Bool) := none
  /-- The option may be given again. -/
  repeats : Bool := false
deriving Inhabited

/-- What the words of a command line give. -/
structure Given where
  /-- Options with their values, in order; flags have the empty text. -/
  options : List (String × String) := []
  positional : Option String := none
  /-- Help or the version was asked for, which ends the reading. -/
  request : Option String := none
deriving DecidableEq, Repr, Inhabited

namespace Given

def has (g : Given) (long : String) : Bool := g.options.any (·.1 == long)

def values (g : Given) (long : String) : List String :=
  (g.options.filter (·.1 == long)).map (·.2)

/-- One more option with its value. -/
def add (g : Given) (spec : OptionSpec) (value : String) : Except UsageError Given :=
  let refused := (spec.accepts.map fun accepts => !accepts value).getD false
  if refused then .error (.valueRefused spec.long value)
  else if g.has spec.long && !spec.repeats then .error (.repeated spec.long)
  else .ok { g with options := g.options ++ [(spec.long, value)] }

/-- The positional word, of which there is at most one that is not empty. -/
def addPositional (g : Given) (allowed : Bool) (word : String) : Except UsageError Given :=
  if allowed && g.positional.isNone && !word.isEmpty then .ok { g with positional := some word }
  else .error (.unexpected word)

/-- All words behind two hyphens are positional. -/
def addPositionals (allowed : Bool) : Given → List String → Except UsageError Given
  | g, [] => .ok g
  | g, word :: rest => (g.addPositional allowed word).bind fun g => addPositionals allowed g rest

end Given

/-- The options of a command, the words that end its reading, and whether it takes a positional. -/
structure CommandSpec where
  options : List OptionSpec
  /-- Options that end the reading, by letter and name. -/
  requests : List (Char × String)
  takesPositional : Bool
deriving Inhabited

/-- A word that may be the value of the option in front of it. -/
def isValueWord (word : String) : Bool :=
  !Text.startsWith word.toList "-" || word == "-"

/-- What the letters of a word ask for. -/
inductive Cluster where
  /-- The option still needs the next word as its value. -/
  | pending (given : Given) (spec : OptionSpec)
  | done (given : Given)

/-- The letters of a word behind its hyphen. -/
def readCluster (c : CommandSpec) (word : String) : Given → Text → Except UsageError Cluster
  | g, [] => .ok (.done g)
  | g, letter :: rest =>
    match c.requests.lookup letter, c.options.find? (·.short == some letter) with
    | some request, _ => .ok (.done { g with request := some request })
    | none, some spec =>
      if spec.accepts.isNone then
        (g.add spec "").bind fun g => readCluster c word g rest
      else
        match rest with
        | [] => .ok (.pending g spec)
        | '=' :: value => (g.add spec (String.ofList value)).map .done
        | value => (g.add spec (String.ofList value)).map .done
    | none, none => .error (.unexpected word)

/-- The name and the value of a word behind two hyphens. -/
def splitLong (word : String) : String × Option String :=
  let body := word.toList.drop 2
  match body.dropWhile (· != '=') with
  | _ :: value => (String.ofList (body.takeWhile (· != '=')), some (String.ofList value))
  | [] => (String.ofList body, none)

/-- What a word behind two hyphens asks for. -/
def readLong (c : CommandSpec) (g : Given) (word : String) : Except UsageError Cluster :=
  let (name, value) := splitLong word
  if value.isNone && c.requests.any (·.2 == name) then .ok (.done { g with request := some name })
  else
    match c.options.find? (·.long == name) with
    | none => .error (.unexpected word)
    | some spec =>
      match spec.accepts, value with
      | none, some _ => .error (.unexpected word)
      | none, none => (g.add spec "").map .done
      | some _, some value => (g.add spec value).map .done
      | some _, none => .ok (.pending g spec)

/-- What the words of a command give; the option waits for its value. -/
def readWords (c : CommandSpec) : Given → Option OptionSpec → List String → Except UsageError Given
  | g, none, [] => .ok g
  | _, some spec, [] => .error (.valueMissing spec.long)
  | g, some spec, word :: rest =>
    if isValueWord word then (g.add spec word).bind fun g => readWords c g none rest
    else .error (.valueMissing spec.long)
  | g, none, word :: rest =>
    if word == "--" then Given.addPositionals c.takesPositional g rest
    else if isValueWord word then
      (g.addPositional c.takesPositional word).bind fun g => readWords c g none rest
    else
      let read := if Text.startsWith word.toList "--" then readLong c g word
        else readCluster c word g (word.toList.drop 1)
      match read with
      | .error e => .error e
      | .ok (.pending g spec) => readWords c g (some spec) rest
      | .ok (.done g) => if g.request.isSome then .ok g else readWords c g none rest

/-! ### The commands -/

/-- What a run is asked to do. -/
structure RunArguments where
  path : String
  migrations : Option (List Migration) := none
  write : Bool := false
  check : Bool := false
  print : Bool := false
  json : Bool := false
  quiet : Bool := false
  verbose : Bool := false
  config : Option String := none
  /-- Work on several files at a time, also when there are only a few. -/
  parallel : Bool := false
deriving DecidableEq, Repr, Inhabited

/-- What a command line asks for. -/
inductive Command where
  | run (arguments : RunArguments)
  | init (dir : Option String) (migrations : Option (List Migration))
  | help
  | initHelp
  | version
deriving DecidableEq, Repr, Inhabited

namespace Command

/-- The migrations that a list between commas names. -/
def migrationsOf? (list : String) : Option (List Migration) :=
  (Text.splitAt ',' list.toList).mapM fun word =>
    (Migration.parse (String.ofList word)).toOption

/-- A list between commas names migrations only. -/
def acceptsMigrations (list : String) : Bool := (migrationsOf? list).isSome

def acceptsPath (value : String) : Bool := !value.isEmpty

/-- A number of 64 bits, perhaps with a plus in front. -/
def acceptsNumber (value : String) : Bool :=
  let digits := match value.toList with
    | '+' :: rest => rest
    | all => all
  !digits.isEmpty && digits.all Char.isDigit
    && digits.foldl (fun n d => 10 * n + (d.toNat - '0'.toNat)) 0 < JsonValue.naturalLimit

def runSpec : CommandSpec :=
  { options :=
      [{ long := "migrate", short := some 'm', accepts := some acceptsMigrations, repeats := true },
        { long := "write", short := some 'w' }, { long := "check" }, { long := "print" },
        { long := "json", short := some 'j' }, { long := "quiet", short := some 'q' },
        { long := "verbose", short := some 'v' },
        { long := "config", accepts := some acceptsPath }, { long := "parallel" },
        { long := "jobs", accepts := some acceptsNumber }]
    requests := [('h', "help"), ('V', "version")]
    takesPositional := true }

/-- The options of the subcommand that makes a configuration. -/
def initSpec : CommandSpec :=
  { options :=
      [{ long := "dir", accepts := some acceptsPath },
        { long := "migrate", accepts := some acceptsMigrations, repeats := true }]
    requests := [('h', "help")]
    takesPositional := false }

/-- The migrations that were given, if any. -/
def selected (g : Given) : Option (List Migration) :=
  match g.values "migrate" with
  | [] => none
  | lists => some (lists.flatMap fun list => (migrationsOf? list).getD [])

/-- The first pair of options that were given and exclude each other. -/
def conflict? (g : Given) : Option UsageError :=
  if g.has "print" && g.has "write" then some (.conflict "print" "write")
  else if g.has "print" && g.has "json" then some (.conflict "print" "json")
  else none

def ofRun (g : Given) : Except UsageError Command :=
  match g.request, g.positional, conflict? g with
  | some "help", _, _ => .ok help
  | some _, _, _ => .ok version
  | none, none, _ => .error .pathMissing
  | none, some _, some e => .error e
  | none, some path, none =>
    .ok (.run
      { path
        migrations := selected g
        write := g.has "write"
        check := g.has "check"
        print := g.has "print"
        json := g.has "json"
        quiet := g.has "quiet"
        verbose := g.has "verbose"
        config := (g.values "config").head?
        parallel := g.has "parallel" })

def ofInit (g : Given) : Command :=
  match g.request with
  | some _ => initHelp
  | none => .init (g.values "dir").head? (selected g)

/-- The command that the words of a command line make. -/
def parse (words : List String) : Except UsageError Command :=
  match words with
  | "init" :: rest => (readWords initSpec {} none rest).map ofInit
  | ["help"] => .ok help
  | ["help", "init"] => .ok initHelp
  | ["help", "help"] => .ok help
  | "help" :: word :: _ => .error (.unexpected word)
  | _ => (readWords runSpec {} none words).bind ofRun

end Command

end TestMigration
