import TestMigration.Text.Basic

/-!
# JSON values

A value of the data format that configurations and reports are written in. Objects keep the order of
their fields and repeated keys, so that a reader can refuse them.
-/

namespace TestMigration

/-- A JSON value. -/
inductive JsonValue where
  | null
  | bool (b : Bool)
  /-- An integer of at most 64 bits without sign. -/
  | natural (n : Nat)
  /-- Any other number, as it is written. -/
  | number (literal : String)
  | string (s : String)
  /-- A string with an escape that stands for no character, or an object with such a key: it can be
  passed over but not be read. -/
  | unreadable
  | array (items : List JsonValue)
  | object (fields : List (String × JsonValue))
deriving Repr, Inhabited

namespace JsonValue

/-- The least number that is no natural of at most 64 bits. -/
def naturalLimit : Nat := 18446744073709551616

/-- The value of an optional field, left out when absent. -/
def optionalField {α : Type} (key : String) (encode : α → JsonValue) :
    Option α → List (String × JsonValue)
  | some a => [(key, encode a)]
  | none => []

def arrayOf {α : Type} (encode : α → JsonValue) (items : List α) : JsonValue :=
  array (items.map encode)

def naturalOrNull : Option Nat → JsonValue
  | some n => natural n
  | none => null

end JsonValue

end TestMigration
