import TestMigration.Json.Value

/-!
# Reading values out of JSON

Small readers that each accept one form of value. A record is an object with known keys, each at most
once, or an array of its fields in order; unknown keys are passed over.
-/

namespace TestMigration

namespace JsonValue

def string? : JsonValue → Option String
  | string s => some s
  | _ => none

def bool? : JsonValue → Option Bool
  | bool b => some b
  | _ => none

def natural? : JsonValue → Option Nat
  | natural n => some n
  | _ => none

/-- All items of a list read by one reader. -/
def readAll {α : Type} (read : JsonValue → Option α) : List JsonValue → Option (List α)
  | [] => some []
  | v :: rest => do
    let a ← read v
    let more ← readAll read rest
    return a :: more

def list? {α : Type} (read : JsonValue → Option α) : JsonValue → Option (List α)
  | array items => readAll read items
  | _ => none

/-- Null, or what a reader accepts. -/
def nullable? {α : Type} (read : JsonValue → Option α) : JsonValue → Option (Option α)
  | null => some none
  | v => (read v).map some

/-- The element of a list of alternatives with this name; a name may also be the only key of an
object, with null as its value. -/
def oneOf? {α : Type} (alternatives : List α) (name : α → String) : JsonValue → Option α
  | string s => alternatives.find? fun a => name a == s
  | object [(s, null)] => alternatives.find? fun a => name a == s
  | _ => none

/-! ### Records -/

/-- The value of a key; no answer when the key is there twice. -/
def field? (fields : List (String × JsonValue)) (key : String) : Option (Option JsonValue) :=
  match fields.filter (·.1 == key) with
  | [] => some none
  | [(_, v)] => some (some v)
  | _ => none

/-- The values of the keys of a record, with `none` for absent ones. -/
def fields? (fields : List (String × JsonValue)) : List String → Option (List (Option JsonValue))
  | [] => some []
  | key :: rest => do
    let v ← field? fields key
    let more ← fields? fields rest
    return v :: more

/-- The fields of a record: by key, or in order with at least so many of them. -/
def record? (keys : List String) (least : Nat) : JsonValue → Option (List (Option JsonValue))
  | object fields => fields? fields keys
  | array items =>
    if least ≤ items.length && items.length ≤ keys.length then
      some (items.map some ++ List.replicate (keys.length - items.length) none)
    else none
  | _ => none

/-- A field that has to be there. -/
def required? {α : Type} (read : JsonValue → Option α) (v : Option JsonValue) : Option α := v.bind read

/-- A field with a value for its absence. -/
def defaulted? {α : Type} (read : JsonValue → Option α) (absent : α) :
    Option JsonValue → Option α
  | some v => read v
  | none => some absent

/-- A field that may be absent or null. -/
def maybe? {α : Type} (read : JsonValue → Option α) (v : Option JsonValue) : Option (Option α) :=
  defaulted? (nullable? read) none v

end JsonValue

end TestMigration
