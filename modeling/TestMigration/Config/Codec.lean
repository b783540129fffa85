import TestMigration.Config.Basic
import TestMigration.Json.Decode
import TestMigration.Json.Parser
import TestMigration.Json.Printer

/-!
# Configurations as JSON

`Config.encode` writes a configuration with absent settings left out, and `Config.decode?` reads it.
All fields may be absent except the patterns of an override.
-/

namespace TestMigration

open JsonValue

/-! ### Writing -/

namespace Migration

def encode (m : Migration) : JsonValue := .string m.name

def decode? : JsonValue → Option Migration := oneOf? all name

end Migration

namespace StyleChoice

def encode (c : StyleChoice) : JsonValue :=
  .object ([("quote", .string c.quote.name), ("semicolons", .string c.semicolons.name)]
    ++ optionalField "indent" .string c.indent)

def decode? (v : JsonValue) : Option StyleChoice := do
  match ← record? ["quote", "semicolons", "indent"] 0 v with
  | [quote, semicolons, indent] =>
    return {
      quote := ← defaulted? (oneOf? QuoteChoice.all QuoteChoice.name) .auto quote
      semicolons := ← defaulted? (oneOf? SemicolonChoice.all SemicolonChoice.name) .auto semicolons
      indent := ← maybe? string? indent }
  | _ => none

end StyleChoice

namespace TargetChoice

def encode (c : TargetChoice) : JsonValue :=
  .object (optionalField "assert" .string c.assert ++ optionalField "test" .string c.test
    ++ optionalField "util" .string c.util)

def decode? (v : JsonValue) : Option TargetChoice := do
  match ← record? ["assert", "test", "util"] 0 v with
  | [assert, test, util] =>
    return {
      assert := ← maybe? string? assert
      test := ← maybe? string? test
      util := ← maybe? string? util }
  | _ => none

end TargetChoice

namespace Override

def encode (o : Override) : JsonValue :=
  .object (("files", arrayOf .string o.files)
    :: optionalField "migrations" (arrayOf Migration.encode) o.migrations)

def decode? (v : JsonValue) : Option Override := do
  match ← record? ["files", "migrations"] 1 v with
  | [files, migrations] =>
    return {
      files := ← required? (list? string?) files
      migrations := ← maybe? (list? Migration.decode?) migrations }
  | _ => none

end Override

namespace Config

def encode (c : Config) : JsonValue :=
  .object (optionalField "extends" .string c.extends?
    ++ optionalField "migrations" (arrayOf Migration.encode) c.migrations
    ++ [("ignore", arrayOf .string c.ignore), ("testPatterns", arrayOf .string c.testPatterns),
      ("targets", c.targets.encode), ("style", c.style.encode),
      ("overrides", arrayOf Override.encode c.overrides)])

def keys : List String :=
  ["extends", "migrations", "ignore", "testPatterns", "targets", "style", "overrides"]

def decode? (v : JsonValue) : Option Config := do
  match ← record? keys 0 v with
  | [base, migrations, ignore, testPatterns, targets, style, overrides] =>
    return {
      extends? := ← maybe? string? base
      migrations := ← maybe? (list? Migration.decode?) migrations
      ignore := ← defaulted? (list? string?) [] ignore
      testPatterns := ← defaulted? (list? string?) [] testPatterns
      targets := ← defaulted? TargetChoice.decode? {} targets
      style := ← defaulted? StyleChoice.decode? {} style
      overrides := ← defaulted? (list? Override.decode?) [] overrides }
  | _ => none

def parse? (text : String) : Option Config := (JsonValue.parse? text.toList).bind decode?

def fileText (c : Config) : String := c.encode.print .pretty ++ "\n"

end Config

end TestMigration
