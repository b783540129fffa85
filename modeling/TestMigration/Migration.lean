import TestMigration.Text.Blank

/-!
# Migrations

The three legacy conventions the engine knows, their names on the command line and in configuration
files, and the modules that each of them makes superfluous.
-/

namespace TestMigration

/-- A legacy convention that can be migrated. -/
inductive Migration where
  /-- Fluent assertions become calls of the assert module. -/
  | assertions
  /-- Global registration functions become imports of the test module. -/
  | registration
  /-- Stubs, spies and sandboxes become mocks of the test module. -/
  | mocks
deriving DecidableEq, Repr, Inhabited

namespace Migration

/-- Every migration, in the order in which their catalogs are tried. -/
def all : List Migration := [mocks, assertions, registration]

def name : Migration → String
  | assertions => "assertions"
  | registration => "registration"
  | mocks => "mocks"

/-- The order in which the touched migrations are gone through. -/
def declared : List Migration := [assertions, registration, mocks]

/-- Modules whose declarations go once the migration has touched a file. -/
def legacyModules : Migration → List String
  | assertions => ["chai", "should", "chai-as-promised", "sinon-chai", "should-sinon"]
  | registration => ["mocha"]
  | mocks => ["sinon"]

/-- The migration that a word of the command line selects: blanks around it and the case of ASCII
letters do not matter, and the legacy libraries stand for their migration. The error is the word as
compared. -/
def parse (word : String) : Except String Migration :=
  let key := String.ofList ((Text.trim word.toList).map Char.toLower)
  if ["assertions", "assert", "should", "chai"].contains key then .ok assertions
  else if ["registration", "mocha"].contains key then .ok registration
  else if ["mocks", "mock", "sinon"].contains key then .ok mocks
  else .error key

def unknownMessage (key : String) : String :=
  "unknown migration '" ++ key ++ "' (expected assertions, registration or mocks)"

/-- The selected migrations without repetition, in the order of `all`; all when none is selected. -/
def normalize : Option (List Migration) → List Migration
  | some selected => all.filter selected.contains
  | none => all

end Migration

end TestMigration
