import TestMigration.Config.Basic
import TestMigration.Glob
import TestMigration.Path
import TestMigration.Run.Outcome

/-!
# Settings of a file

Which migrations a configuration enables for a file, and whether the file is ignored. Patterns of an
override match the path or any trailing part of it; a pattern that cannot be read matches nothing.
-/

namespace TestMigration

namespace Override

def appliesTo (o : Override) (path : String) : Bool :=
  let patterns := o.files.filterMap Glob.tokens?
  let tails := (Glob.tailsOf (Path.components path)).filter (!·.isEmpty)
  tails.any fun tail => patterns.any fun p => Glob.isMatch p (Path.ofComponents tail)

end Override

namespace Config

/-- The migrations for a file: those of the last override about it that names some. -/
def migrationsFor (c : Config) (path : String) : List Migration :=
  let chosen := (c.overrides.filter (·.appliesTo path)).filterMap (·.migrations)
  match chosen.getLast? with
  | some migrations => Migration.normalize (some migrations)
  | none => c.enabled

/-- What is asked for a file. -/
def settingsFor (c : Config) (path : String) : Settings :=
  { migrations := c.migrationsFor path, targets := c.targets.targets, style := c.style }

/-- The patterns of ignored files, or the first one that cannot be read. -/
def ignorePatterns : List String → Except String (List (List Glob.Token))
  | [] => .ok []
  | pattern :: rest =>
    match Glob.tokens? pattern with
    | none => .error pattern
    | some p => (ignorePatterns rest).map (p :: ·)

def invalidPatternMessage (pattern : String) : String := "Invalid ignore pattern: " ++ pattern

end Config

/-- One of the patterns matches the path. -/
def isIgnored (patterns : List (List Glob.Token)) (path : String) : Bool :=
  patterns.any fun p => Glob.isMatch p path

end TestMigration
