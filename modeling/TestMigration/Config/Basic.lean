import TestMigration.Import.Target
import TestMigration.Migration
import TestMigration.Style.Choice

/-!
# Configurations

What a configuration file can say. `Config.inherit` completes a configuration by the one it extends:
single settings of the base fill what is open, and its lists come first.
-/

namespace TestMigration

/-- Specifiers of target modules that a configuration chooses. -/
structure TargetChoice where
  assert : Option String := none
  test : Option String := none
  util : Option String := none
deriving DecidableEq, Repr, Inhabited

namespace TargetChoice

/-- The specifiers, with the usual ones where nothing is chosen. -/
def targets (c : TargetChoice) : Targets :=
  let usual : Targets := {}
  { assert := c.assert.getD usual.assert
    test := c.test.getD usual.test
    util := c.util.getD usual.util }

/-- The choice, with open parts taken from a base. -/
def inherit (c base : TargetChoice) : TargetChoice :=
  { assert := c.assert <|> base.assert
    test := c.test <|> base.test
    util := c.util <|> base.util }

end TargetChoice

/-- The migrations for files that match one of some patterns. -/
structure Override where
  files : List String
  migrations : Option (List Migration) := none
deriving DecidableEq, Repr, Inhabited

/-- A configuration. -/
structure Config where
  /-- The file that this one extends. -/
  extends? : Option String := none
  /-- The enabled migrations; all when nothing is said. -/
  migrations : Option (List Migration) := none
  /-- Patterns of files to leave alone. -/
  ignore : List String := []
  /-- Ends of the names of test files; the usual ones when empty. -/
  testPatterns : List String := []
  targets : TargetChoice := {}
  style : StyleChoice := {}
  /-- Migrations for certain files; later entries win. -/
  overrides : List Override := []
deriving DecidableEq, Repr, Inhabited

namespace Config

/-- The configuration that a new file is filled with. -/
def starter (migrations : Option (List Migration)) : Config :=
  { migrations := some (migrations.getD Migration.all)
    ignore := ["**/node_modules/**", "**/fixtures/**"] }

/-- The configuration with another selection of migrations, if one is given. -/
def select (c : Config) (migrations : Option (List Migration)) : Config :=
  { c with migrations := migrations <|> c.migrations }

/-- The enabled migrations, in the order in which their catalogs are tried. -/
def enabled (c : Config) : List Migration := Migration.normalize c.migrations

/-- The configuration completed by a base. -/
def inherit (c base : Config) : Config :=
  { extends? := c.extends? <|> base.extends?
    migrations := c.migrations <|> base.migrations
    ignore := base.ignore ++ c.ignore
    testPatterns := if c.testPatterns.isEmpty then base.testPatterns else c.testPatterns
    targets := c.targets.inherit base.targets
    style := c.style.inherit base.style
    overrides := base.overrides ++ c.overrides }

/-- Ends of the names of test files when a configuration names none. -/
def usualTestPatterns : List String :=
  [".test.js", ".test.mjs", ".test.cjs", ".test.jsx", ".test.ts", ".test.mts", ".test.cts",
    ".test.tsx", ".spec.js", ".spec.mjs", ".spec.cjs", ".spec.jsx", ".spec.ts", ".spec.mts",
    ".spec.cts", ".spec.tsx"]

def testFilePatterns (c : Config) : List String :=
  if c.testPatterns.isEmpty then usualTestPatterns else c.testPatterns

end Config

end TestMigration
