import TestMigration.Text.Basic

/-!
# Target modules

The modules that generated code uses, the specifiers under which they are imported, and the names
under which a file knows them and the legacy libraries.
-/

namespace TestMigration

/-- Something that generated code needs from a module. -/
inductive ModuleKind where
  /-- The assert module as a whole. -/
  | assert
  /-- Registration functions of the test module. -/
  | test
  /-- The mock tracker of the test module. -/
  | mock
  /-- Deep comparison from the util module. -/
  | util
deriving DecidableEq, Repr, Inhabited

namespace ModuleKind

def all : List ModuleKind := [assert, test, mock, util]

def name : ModuleKind → String
  | assert => "Assert"
  | test => "Test"
  | mock => "Mock"
  | util => "Util"

end ModuleKind

/-- Specifiers of the target modules. -/
structure Targets where
  assert : String := "node:assert"
  test : String := "node:test"
  util : String := "node:util"
deriving DecidableEq, Repr, Inhabited

namespace Targets

def specifier (t : Targets) : ModuleKind → String
  | .assert => t.assert
  | .test | .mock => t.test
  | .util => t.util

end Targets

/-- `s` without the text `head` at its beginning, if it is there. -/
def dropHead (head : String) (s : Text) : Text :=
  if Text.startsWith s head then s.drop head.toList.length else s

/-- `s` without the text `tail` at its end, if it is there. -/
def dropTail (tail : String) (s : Text) : Text :=
  if Text.endsWith s tail then s.take (s.length - tail.toList.length) else s

/-- The module that a specifier names: the mark of built-in modules and the strict variant do not
matter. -/
def logicalModule (specifier : String) : String :=
  String.ofList (dropTail "/strict" (dropHead "node:" specifier.toList))

/-- The specifier names the strict variant of a module. -/
def isStrictSpecifier (specifier : String) : Bool := Text.endsWith specifier.toList "/strict"

/-- Names that generated code uses and that legacy code is known by. -/
structure Names where
  assert : String := "assert"
  /-- The assert name belongs to the strict variant, in which `equal` is strict too. -/
  assertStrict : Bool := false
  mock : String := "mock"
  util : String := "isDeepStrictEqual"
  sinon : String := "sinon"
  chai : String := "chai"
  should : String := "should"
  expect : String := "expect"
deriving DecidableEq, Repr, Inhabited

/-- How a file imports its modules. -/
inductive Dialect where
  | esm
  | commonJs
deriving DecidableEq, Repr, Inhabited

end TestMigration
