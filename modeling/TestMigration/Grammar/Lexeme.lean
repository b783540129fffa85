import TestMigration.Text.Basic

/-!
# Lexemes

Recognisers for the words, numbers, strings and operators of the language. Each looks at the
beginning of a text and returns what it takes and what remains.
-/

namespace TestMigration

/-- A recogniser: the part of the text it takes and the rest. -/
abbrev Lexeme := Text → Option (Text × Text)

namespace Lexeme

/-! ### Character classes -/

/-- Blanks that may stand between tokens: ASCII blanks, the space separators of Unicode, and the
invisible marks that count as blanks. -/
def isGap (c : Char) : Bool :=
  let n := c.toNat
  (9 ≤ n && n ≤ 13) || n == 32 || n == 0xA0 || n == 0x1680 || (0x2000 ≤ n && n ≤ 0x200B)
    || n == 0x2028 || n == 0x2029 || n == 0x202F || n == 0x205F || n == 0x2060 || n == 0x3000
    || n == 0xFEFF

/-- ASCII blanks, the only ones that count when a statement ends without a semicolon. -/
def isPlainBlank (c : Char) : Bool :=
  let n := c.toNat
  (9 ≤ n && n ≤ 13) || n == 32

/-- Characters that end a line comment. -/
def isLineBreak (c : Char) : Bool :=
  c == '\n' || c == '\r' || c.toNat == 0x2028 || c.toNat == 0x2029

/-- The ASCII punctuation that never belongs to a word. -/
def punctuation : Text := ":;\x60\"'@#.,|^&<=>+-*/\\%?!~()[]\x7b\x7d".toList

/-- What may go on a word: everything but controls, blanks and punctuation. -/
def isWordPart (c : Char) : Bool :=
  32 < c.toNat && !isGap c && !punctuation.contains c

/-- What may begin a word. -/
def isWordStart (c : Char) : Bool := isWordPart c && !c.isDigit

def isHex (c : Char) : Bool :=
  c.isDigit || ('a' ≤ c && c ≤ 'f') || ('A' ≤ c && c ≤ 'F')

/-! ### Words -/

/-- A character given by its code in four hexadecimal digits or in braces. -/
def unicodeEscape : Lexeme
  | '\\' :: 'u' :: '\x7b' :: t =>
    let digits := t.takeWhile isHex
    match t.dropWhile isHex with
    | '\x7d' :: rest =>
      if digits.isEmpty then none else some ('\\' :: 'u' :: '\x7b' :: digits ++ ['\x7d'], rest)
    | _ => none
  | '\\' :: 'u' :: a :: b :: c :: d :: rest =>
    if [a, b, c, d].all isHex then some (['\\', 'u', a, b, c, d], rest) else none
  | _ => none

/-- The longest continuation of a word; the number bounds how many pieces are looked at. -/
def wordTail : Nat → Text → Text × Text
  | 0, t => ([], t)
  | _, [] => ([], [])
  | n + 1, c :: t =>
    if isWordPart c then
      let (taken, rest) := wordTail n t
      (c :: taken, rest)
    else
      match unicodeEscape (c :: t) with
      | some (escape, rest) =>
        let (taken, rest) := wordTail n rest
        (escape ++ taken, rest)
      | none => ([], c :: t)

/-- A word: a name or a keyword. -/
def word : Lexeme
  | [] => none
  | c :: t =>
    if isWordStart c then
      let (taken, rest) := wordTail t.length t
      some (c :: taken, rest)
    else
      match unicodeEscape (c :: t) with
      | some (escape, rest) =>
        let (taken, rest) := wordTail rest.length rest
        some (escape ++ taken, rest)
      | none => none

/-- The name of a private member, with its mark. -/
def privateWord : Lexeme
  | '#' :: t => (word t).map fun (taken, rest) => ('#' :: taken, rest)
  | _ => none

/-! ### Numbers -/

/-- Digits in which single underscores may separate. The flag says that a digit came just before. -/
def digitsGo (isDigit : Char → Bool) : Bool → Text → Text × Text
  | _, [] => ([], [])
  | after, c :: t =>
    if isDigit c then
      let (taken, rest) := digitsGo isDigit true t
      (c :: taken, rest)
    else if after && c == '_' then
      match t with
      | d :: _ =>
        if isDigit d then
          let (taken, rest) := digitsGo isDigit false t
          (c :: taken, rest)
        else ([], c :: t)
      | [] => ([], c :: t)
    else ([], c :: t)

def digits (isDigit : Char → Bool) : Lexeme := fun t =>
  match digitsGo isDigit false t with
  | ([], _) => none
  | r => some r

/-- The mark of an integer of any size, if there is one. -/
def bigMark (r : Text × Text) : Text × Text :=
  match r.2 with
  | 'n' :: rest => (r.1 ++ ['n'], rest)
  | _ => r

def exponent (r : Text × Text) : Text × Text :=
  match r.2 with
  | e :: t =>
    if e == 'e' || e == 'E' then
      let (sign, t') :=
        match t with
        | s :: more => if s == '+' || s == '-' then ([s], more) else ([], t)
        | [] => ([], [])
      match digits Char.isDigit t' with
      | some (ds, rest) => (r.1 ++ e :: sign ++ ds, rest)
      | none => r
    else r
  | [] => r

/-- A number in one of the marked bases. -/
def basedNumber (isDigit : Char → Bool) (mark : Char) (t : Text) : Option (Text × Text) :=
  (digits isDigit t).map fun (ds, rest) => bigMark ('0' :: mark :: ds, rest)

/-- A number. A point after an integer belongs to it even when no digit follows. -/
def number : Lexeme
  | '0' :: m :: t =>
    if m == 'x' || m == 'X' then basedNumber isHex m t
    else if m == 'b' || m == 'B' then basedNumber (fun c => c == '0' || c == '1') m t
    else if m == 'o' || m == 'O' then basedNumber (fun c => '0' ≤ c && c ≤ '7') m t
    else decimal ('0' :: m :: t)
  | t => decimal t
where
  decimal : Lexeme
    | '.' :: t => (digits Char.isDigit t).map fun (ds, rest) => exponent ('.' :: ds, rest)
    | t =>
      match digits Char.isDigit t with
      | none => none
      | some (ds, '.' :: rest) =>
        match digits Char.isDigit rest with
        | some (fraction, rest) => some (exponent (ds ++ '.' :: fraction, rest))
        | none => some (exponent (ds ++ ['.'], rest))
      | some (ds, 'n' :: rest) => some (ds ++ ['n'], rest)
      | some r => some (exponent r)

/-! ### Strings -/

/-- What follows a backslash inside a string; the backslash is taken already. -/
def escaped : Lexeme
  | '\r' :: '\n' :: rest => some (['\r', '\n'], rest)
  | 'x' :: a :: b :: rest =>
    if isHex a && isHex b then some (['x', a, b], rest) else none
  | 'u' :: t => (unicodeEscape ('\\' :: 'u' :: t)).map fun (taken, rest) => (taken.drop 1, rest)
  | 'x' :: _ => none
  | c :: rest => some ([c], rest)
  | [] => none

/-- The rest of a string behind its opening quote. Blanks with a line break in them may stand only
right before the closing quote. -/
def stringTail (quote : Char) : Nat → Text → Option (Text × Text)
  | 0, _ => none
  | _, [] => none
  | n + 1, c :: t =>
    if c == quote then some ([c], t)
    else if c == '\\' then
      match escaped t with
      | some (taken, rest) =>
        (stringTail quote n rest).map fun (more, rest) => (c :: taken ++ more, rest)
      | none => none
    else if c == '\n' || c == '\r' then
      let blanks := (c :: t).takeWhile isGap
      match (c :: t).dropWhile isGap with
      | q :: rest => if q == quote then some (blanks ++ [q], rest) else none
      | [] => none
    else (stringTail quote n t).map fun (more, rest) => (c :: more, rest)

def string : Lexeme
  | q :: t =>
    if q == '\'' || q == '"' then
      (stringTail q (t.length + 1) t).map fun (more, rest) => (q :: more, rest)
    else none
  | [] => none

/-! ### Regular expressions -/

/-- The rest of a regular expression up to its closing slash; the flag says that a character class is
open. -/
def regexTail : Nat → Bool → Text → Option (Text × Text)
  | 0, _, _ => none
  | _, _, [] => none
  | n + 1, inClass, c :: t =>
    if c == '\n' then none
    else if c == '\\' then
      match t with
      | d :: rest =>
        if d == '\n' then none
        else (regexTail n inClass rest).map fun (more, rest) => (c :: d :: more, rest)
      | [] => none
    else if inClass then
      (regexTail n (c != ']') t).map fun (more, rest) => (c :: more, rest)
    else if c == '/' then some ([c], t)
    else (regexTail n (c == '[') t).map fun (more, rest) => (c :: more, rest)

def regex : Lexeme
  | '/' :: c :: t =>
    if c == '/' then none
    else
      match regexTail (t.length + 2) false (c :: t) with
      | some (taken, rest) =>
        let flags := rest.takeWhile fun c => 'a' ≤ c && c ≤ 'z'
        some ('/' :: taken ++ flags, rest.dropWhile fun c => 'a' ≤ c && c ≤ 'z')
      | none => none
  | _ => none

/-! ### Operators -/

/-- Operators and brackets, longer ones first. -/
def operators : List Text :=
  [">>>=", "...", "===", "!==", "**=", "<<=", ">>=", ">>>", "&&=", "||=", "??=", "=>", "==", "!=",
    "<=", ">=", "&&", "||", "??", "?.", "++", "--", "+=", "-=", "*=", "/=", "%=", "&=", "|=", "^=",
    "<<", ">>", "**", "\x7b", "\x7d", "(", ")", "[", "]", ";", ",", "<", ">", "+", "-", "*", "/", "%",
    "&", "|", "^", "!", "~", "?", ":", "=", "@", "."].map String.toList

/-- The longest operator at the beginning of the text. A question mark before a point and a digit
stands alone. -/
def operator : Lexeme
  | '?' :: '.' :: d :: t =>
    if d.isDigit then some (['?'], '.' :: d :: t) else some (['?', '.'], d :: t)
  | t => (operators.find? (·.isPrefixOf t)).map fun op => (op, t.drop op.length)

def exactly (s : String) : Lexeme := fun t =>
  if s.toList.isPrefixOf t then some (s.toList, t.drop s.toList.length) else none

/-! ### Comments -/

/-- The rest of a block comment behind its opening. -/
def blockTail : Text → Option (Text × Text)
  | '*' :: '/' :: rest => some (['*', '/'], rest)
  | c :: t => (blockTail t).map fun (more, rest) => (c :: more, rest)
  | [] => none

/-- A comment. -/
def comment : Lexeme
  | '/' :: '/' :: t =>
    some ('/' :: '/' :: t.takeWhile (!isLineBreak ·), t.dropWhile (!isLineBreak ·))
  | '/' :: '*' :: t => (blockTail t).map fun (more, rest) => ('/' :: '*' :: more, rest)
  | _ => none

end Lexeme

end TestMigration
