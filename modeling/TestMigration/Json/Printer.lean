import TestMigration.Json.Value

/-!
# Writing JSON

Values are written on one line or with an indentation of two spaces for each level. In strings only
quotes, backslashes and control characters are escaped.
-/

namespace TestMigration

namespace JsonValue

/-- How a value is laid out. -/
inductive Layout where
  | compact
  | pretty
deriving DecidableEq, Repr, Inhabited

namespace Layout

/-- What separates the entries of a level from the brackets and from each other. -/
def newline : Layout → Nat → Text
  | compact, _ => []
  | pretty, level => '\n' :: List.replicate (2 * level) ' '

/-- What stands between a key and its value. -/
def colon : Layout → Text
  | compact => [':']
  | pretty => [':', ' ']

end Layout

def hexDigit (n : Nat) : Char :=
  if n < 10 then Char.ofNat (n + '0'.toNat) else Char.ofNat (n - 10 + 'a'.toNat)

/-- A character as it stands in a string. -/
def escape (c : Char) : Text :=
  match c with
  | '"' => ['\\', '"']
  | '\\' => ['\\', '\\']
  | '\x08' => ['\\', 'b']
  | '\x0c' => ['\\', 'f']
  | '\n' => ['\\', 'n']
  | '\r' => ['\\', 'r']
  | '\t' => ['\\', 't']
  | _ =>
    if c.toNat < 0x20 then
      ['\\', 'u', '0', '0', hexDigit (c.toNat / 16), hexDigit (c.toNat % 16)]
    else [c]

def quoted (s : String) : Text := '"' :: s.toList.flatMap escape ++ ['"']

mutual

/-- The text of a value whose brackets stand at a level. -/
def write (l : Layout) (level : Nat) : JsonValue → Text
  | .null | .unreadable => "null".toList
  | .bool b => (if b then "true" else "false").toList
  | .natural n => Nat.toDigits 10 n
  | .number literal => literal.toList
  | .string s => quoted s
  | .array [] => ['[', ']']
  | .array (first :: rest) =>
    '[' :: l.newline (level + 1) ++ write l (level + 1) first ++ writeItems l (level + 1) rest
      ++ l.newline level ++ [']']
  | .object [] => ['\x7b', '\x7d']
  | .object ((key, value) :: rest) =>
    '\x7b' :: l.newline (level + 1) ++ quoted key ++ l.colon ++ write l (level + 1) value
      ++ writeFields l (level + 1) rest ++ l.newline level ++ ['\x7d']

/-- The items behind the first one. -/
def writeItems (l : Layout) (level : Nat) : List JsonValue → Text
  | [] => []
  | item :: rest => ',' :: l.newline level ++ write l level item ++ writeItems l level rest

/-- The fields behind the first one. -/
def writeFields (l : Layout) (level : Nat) : List (String × JsonValue) → Text
  | [] => []
  | (key, value) :: rest =>
    ',' :: l.newline level ++ quoted key ++ l.colon ++ write l level value
      ++ writeFields l level rest

end

def print (l : Layout) (v : JsonValue) : String := String.ofList (v.write l 0)

end JsonValue

end TestMigration
