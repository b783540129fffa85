import TestMigration.Json.Value

/-!
# Reading JSON

`JsonValue.parse?` reads a text that is one value with blanks around it. Numbers have no leading zeros
or points, strings no control characters, and nothing may follow the last entry but its bracket.
-/

namespace TestMigration

namespace JsonValue

/-- The characters between tokens. -/
def isGap (c : Char) : Bool := c == ' ' || c == '\n' || c == '\t' || c == '\r'

/-- The text without blanks in front. -/
def skipGap (t : Text) : Text := t.dropWhile isGap

/-! ### Numbers -/

def naturalOf (digits : Text) : Nat :=
  digits.foldl (fun n d => 10 * n + (d.toNat - '0'.toNat)) 0

/-- The digits of an integer: zero, or no leading zero. -/
def integerPart (t : Text) : Option (Text × Text) :=
  match t.takeWhile Char.isDigit with
  | [] => none
  | '0' :: _ :: _ => none
  | digits => some (digits, t.dropWhile Char.isDigit)

/-- The point and the digits behind it, or nothing. -/
def fractionPart (t : Text) : Option (Text × Text) :=
  match t with
  | '.' :: rest =>
    match rest.takeWhile Char.isDigit with
    | [] => none
    | digits => some ('.' :: digits, rest.dropWhile Char.isDigit)
  | _ => some ([], t)

/-- The sign of an exponent, or nothing. -/
def exponentSign (t : Text) : Text × Text :=
  match t with
  | '+' :: rest => (['+'], rest)
  | '-' :: rest => (['-'], rest)
  | _ => ([], t)

/-- The exponent, or nothing. -/
def exponentPart (t : Text) : Option (Text × Text) :=
  match t with
  | c :: rest =>
    if c == 'e' || c == 'E' then
      let (sign, rest) := exponentSign rest
      match rest.takeWhile Char.isDigit with
      | [] => none
      | digits => some (c :: sign ++ digits, rest.dropWhile Char.isDigit)
    else some ([], t)
  | [] => some ([], t)

/-- A number without its sign. -/
def unsigned (sign t : Text) : Option (JsonValue × Text) := do
  let (whole, rest) ← integerPart t
  let (fraction, rest) ← fractionPart rest
  let (exponent, rest) ← exponentPart rest
  if sign.isEmpty && fraction.isEmpty && exponent.isEmpty && naturalOf whole < naturalLimit then
    return (.natural (naturalOf whole), rest)
  else return (.number (String.ofList (sign ++ whole ++ fraction ++ exponent)), rest)

/-- A number at the front of a text. -/
def numberAt (t : Text) : Option (JsonValue × Text) :=
  match t with
  | '-' :: rest => unsigned ['-'] rest
  | _ => unsigned [] t

/-! ### Strings -/

/-- What stands for a part of a string: a character, or a unit of 16 bits. -/
inductive Piece where
  | char (c : Char)
  | unit (n : Nat)
deriving DecidableEq, Repr, Inhabited

def hexValue? (c : Char) : Option Nat :=
  if '0' ≤ c && c ≤ '9' then some (c.toNat - '0'.toNat)
  else if 'a' ≤ c && c ≤ 'f' then some (c.toNat - 'a'.toNat + 10)
  else if 'A' ≤ c && c ≤ 'F' then some (c.toNat - 'A'.toNat + 10)
  else none

/-- The unit that four hexadecimal digits write. -/
def unitOf? (a b c d : Char) : Option Nat := do
  return ((← hexValue? a) * 16 + (← hexValue? b)) * 256 + (← hexValue? c) * 16 + (← hexValue? d)

/-- The character that a short escape stands for. -/
def shortEscape? (c : Char) : Option Char :=
  match c with
  | '"' => some '"'
  | '\\' => some '\\'
  | '/' => some '/'
  | 'b' => some '\x08'
  | 'f' => some '\x0c'
  | 'n' => some '\n'
  | 'r' => some '\r'
  | 't' => some '\t'
  | _ => none

/-- The pieces of a string up to its closing quote, and what follows. -/
def pieces : Text → Option (List Piece × Text)
  | [] => none
  | '"' :: rest => some ([], rest)
  | '\\' :: 'u' :: a :: b :: c :: d :: rest => do
    let unit ← unitOf? a b c d
    let (more, rest) ← pieces rest
    return (.unit unit :: more, rest)
  | '\\' :: e :: rest => do
    let c ← shortEscape? e
    let (more, rest) ← pieces rest
    return (.char c :: more, rest)
  | c :: rest => do
    guard (c != '\\' && 0x20 ≤ c.toNat)
    let (more, rest) ← pieces rest
    return (.char c :: more, rest)

/-- The unit is the first or the second half of a pair. -/
def isHalf (lowest : Nat) (unit : Nat) : Bool := lowest ≤ unit && unit < lowest + 0x400

/-- The characters of the pieces; halves of a pair count only together. -/
def joined : List Piece → Option Text
  | [] => some []
  | .char c :: rest => (joined rest).map (c :: ·)
  | .unit high :: .unit low :: rest =>
    if isHalf 0xD800 high && isHalf 0xDC00 low then
      (joined rest).map (Char.ofNat (0x10000 + (high - 0xD800) * 0x400 + (low - 0xDC00)) :: ·)
    else if isHalf 0xD800 high || isHalf 0xDC00 high then none
    else (joined (.unit low :: rest)).map (Char.ofNat high :: ·)
  | .unit n :: rest =>
    if isHalf 0xD800 n || isHalf 0xDC00 n then none else (joined rest).map (Char.ofNat n :: ·)

/-- The string behind an opening quote. -/
def stringAt (t : Text) : Option (Option String × Text) :=
  (pieces t).map fun (ps, rest) => ((joined ps).map String.ofList, rest)

/-! ### Values -/

/-- The text behind a word, if it begins with the word. -/
def wordAt (word : String) (v : JsonValue) (t : Text) : Option (JsonValue × Text) :=
  if Text.startsWith t word then some (v, t.drop word.toList.length) else none

/-- An object of fields, some of whose keys may have been unreadable. -/
def objectOf (fields : List (Option String × JsonValue)) : JsonValue :=
  if fields.all (·.1.isSome) then object (fields.map fun (k, v) => (k.getD "", v)) else unreadable

mutual

/-- A value at the front of a text. The number bounds nesting and entries. -/
def valueAt : Nat → Text → Option (JsonValue × Text)
  | 0, _ => none
  | n + 1, t =>
    match skipGap t with
    | '\x7b' :: rest =>
      match skipGap rest with
      | '\x7d' :: rest => some (object [], rest)
      | rest => (fieldsAt n rest).map fun (fields, rest) => (objectOf fields, rest)
    | '[' :: rest =>
      match skipGap rest with
      | ']' :: rest => some (array [], rest)
      | rest => (itemsAt n rest).map fun (items, rest) => (array items, rest)
    | '"' :: rest => (stringAt rest).map fun (s, rest) => ((s.map string).getD unreadable, rest)
    | rest =>
      wordAt "null" null rest <|> wordAt "true" (bool true) rest
        <|> wordAt "false" (bool false) rest <|> numberAt rest

/-- The items of an array up to its bracket. -/
def itemsAt : Nat → Text → Option (List JsonValue × Text)
  | 0, _ => none
  | n + 1, t => do
    let (item, rest) ← valueAt n t
    match skipGap rest with
    | ']' :: rest => return ([item], rest)
    | ',' :: rest =>
      let (more, rest) ← itemsAt n rest
      return (item :: more, rest)
    | _ => none

/-- The fields of an object up to its brace. -/
def fieldsAt : Nat → Text → Option (List (Option String × JsonValue) × Text)
  | 0, _ => none
  | n + 1, t =>
    match skipGap t with
    | '"' :: rest => do
      let (key, rest) ← stringAt rest
      match skipGap rest with
      | ':' :: rest =>
        let (value, rest) ← valueAt n rest
        match skipGap rest with
        | '\x7d' :: rest => return ([(key, value)], rest)
        | ',' :: rest =>
          let (more, rest) ← fieldsAt n rest
          return ((key, value) :: more, rest)
        | _ => none
      | _ => none
    | _ => none

end

def parse? (t : Text) : Option JsonValue := do
  let (v, rest) ← valueAt (2 * t.length + 2) t
  guard (skipGap rest).isEmpty
  return v

end JsonValue

end TestMigration
