import TestMigration.Text.Basic

/-!
# File patterns

A pattern is read into a sequence of tokens, and a path matches when the tokens can be laid over its
bytes. A star and a question mark match slashes as well, and a question mark matches a single byte.
Two stars between slashes stand for any number of directories.
-/

namespace TestMigration

namespace Glob

/-- A part of a pattern. -/
inductive Token where
  | literal (c : Char)
  /-- Any byte. -/
  | any
  /-- Any bytes. -/
  | star
  /-- `**/` in front: nothing, or directories. -/
  | anyDirectories
  /-- `/**` at the end: something below. -/
  | anythingBelow
  /-- `/**/` in between: a slash, or directories between slashes. -/
  | directoriesBetween
  /-- A byte of the ranges, or none of them. -/
  | oneOf (negated : Bool) (ranges : List (Char × Char))
  /-- One of several sequences. -/
  | alternatives (branches : List (List Token))
deriving Repr, Inhabited

/-! ### Reading patterns -/

/-- A sequence that is being read, last token first, with the sequences that wait for it: the group it
belongs to holds earlier branches and the sequence in front of the group. -/
structure Building where
  current : List Token := []
  /-- For each open group, innermost first: its earlier branches, last first, and the sequence around
  it. -/
  groups : List (List (List Token) × List Token) := []
deriving Repr, Inhabited

namespace Building

def push (b : Building) (t : Token) : Building := { b with current := t :: b.current }

/-- Two plain stars. -/
def pushStars (b : Building) : Building := (b.push .star).push .star

def openGroup (b : Building) : Building := { current := [], groups := ([], b.current) :: b.groups }

/-- The next branch of a group; a comma outside of groups is plain. -/
def nextBranch (b : Building) : Building :=
  match b.groups with
  | [] => b.push (.literal ',')
  | (branches, around) :: rest =>
    { current := [], groups := (b.current.reverse :: branches, around) :: rest }

/-- The end of a group, if one is open. -/
def closeGroup (b : Building) : Option Building :=
  match b.groups with
  | [] => none
  | (branches, around) :: rest =>
    let group := Token.alternatives (b.current.reverse :: branches).reverse
    some { current := group :: around, groups := rest }

/-- The tokens, if no group is open. -/
def finish (b : Building) : Option (List Token) :=
  if b.groups.isEmpty then some b.current.reverse else none

/-- Two stars behind `previous` and in front of `rest`, with what is left of `rest`. They mean
directories only between slashes, at the ends of the pattern and at the ends of a branch. -/
def doubleStar (b : Building) (previous : Option Char) (rest : Text) : Building × Text :=
  let next := rest.head?
  if b.current.isEmpty then
    if next.isNone || next == some '/' then (b.push .anyDirectories, rest.drop 1)
    else (b.pushStars, rest)
  else if previous != some '/'
      && (b.groups.isEmpty || (previous != some ',' && previous != some '\x7b')) then
    (b.pushStars, rest)
  else
    let atEnd := next.isNone || (!b.groups.isEmpty && (next == some ',' || next == some '\x7d'))
    if !atEnd && next != some '/' then (b.pushStars, rest)
    else
      let current :=
        match b.current with
        | .anyDirectories :: before => .anyDirectories :: before
        | .anythingBelow :: before => .anythingBelow :: before
        | _ :: before => (if atEnd then .anythingBelow else .directoriesBetween) :: before
        | [] => []
      ({ b with current }, if atEnd then rest else rest.drop 1)

end Building

/-- The ranges of a class up to its bracket, last first. `first` holds at the beginning, where a
bracket is plain, and `open'` behind a hyphen that may make a range. -/
def classRanges (first open' : Bool) (ranges : List (Char × Char)) :
    Text → Option (List (Char × Char) × Text)
  | [] => none
  | c :: rest =>
    if c == ']' && !first then some (if open' then ('-', '-') :: ranges else ranges, rest)
    else if c == '-' && !first && !open' then classRanges false true ranges rest
    else if open' then
      match ranges with
      | (low, _) :: before =>
        if c < low then none else classRanges false false ((low, c) :: before) rest
      | [] => none
    else classRanges false false ((c, c) :: ranges) rest

/-- A class behind its opening bracket. -/
def classAt (t : Text) : Option (Token × Text) :=
  let negated := t.head? == some '!' || t.head? == some '^'
  (classRanges true false [] (if negated then t.drop 1 else t)).map fun (ranges, rest) =>
    (.oneOf negated ranges.reverse, rest)

/-- The tokens of a pattern, given the character in front of the rest. The number bounds the steps. -/
def tokensGo : Nat → Option Char → Building → Text → Option (List Token)
  | 0, _, _, _ => none
  | _ + 1, _, b, [] => b.finish
  | n + 1, previous, b, c :: rest =>
    match c with
    | '?' => tokensGo n (some c) (b.push .any) rest
    | '*' =>
      match rest with
      | '*' :: rest =>
        let (b, left) := b.doubleStar previous rest
        -- a slash that belongs to the stars is the character in front of what follows
        let seen := if left.length < rest.length then some '/' else some '*'
        tokensGo n seen b left
      | _ => tokensGo n (some c) (b.push .star) rest
    | '[' =>
      match classAt rest with
      | some (t, rest) => tokensGo n (some ']') (b.push t) rest
      | none => none
    | '\x7b' => tokensGo n (some c) b.openGroup rest
    | '\x7d' =>
      match b.closeGroup with
      | some b => tokensGo n (some c) b rest
      | none => none
    | ',' => tokensGo n (some c) b.nextBranch rest
    | '\\' =>
      match rest with
      | escaped :: rest => tokensGo n (some escaped) (b.push (.literal escaped)) rest
      | [] => none
    | _ => tokensGo n (some c) (b.push (.literal c)) rest

/-- The tokens of a pattern; none when it is no pattern. -/
def tokens? (pattern : String) : Option (List Token) :=
  tokensGo (pattern.toList.length + 1) none {} pattern.toList

/-! ### Matching -/

def bytesOf (c : Char) : List UInt8 := (String.singleton c).toUTF8.toList

/-- All ends of a list, the whole list first. -/
def tailsOf {α : Type} : List α → List (List α)
  | [] => [[]]
  | a :: rest => (a :: rest) :: tailsOf rest

/-- What follows the given bytes. -/
def after (front : List UInt8) (input : List UInt8) : List (List UInt8) :=
  if front.isPrefixOf input then [input.drop front.length] else []

/-- What follows each slash. -/
def afterSlashes (input : List UInt8) : List (List UInt8) :=
  (tailsOf input).filterMap fun t =>
    match t with
    | 47 :: rest => some rest
    | _ => none

/-- The byte belongs to a range of characters. Of a character of several bytes each byte counts, and
the range reaches from the last byte of its lower end to the first byte of its upper end. -/
def inRange (b : UInt8) (range : Char × Char) : Bool :=
  let low := bytesOf range.1
  let high := bytesOf range.2
  if range.1 == range.2 then low.contains b
  else low.contains b || high.contains b
    || (low.getLastD 0 ≤ b && b ≤ high.headD 0)

/-- The remainders without repetition: those of one input are told apart by their length. -/
def distinct (remainders : List (List UInt8)) : List (List UInt8) :=
  remainders.foldr (fun r seen => if seen.any (·.length == r.length) then seen else r :: seen) []

mutual

/-- The token stands for nothing: a group all of whose branches do. -/
def Token.isVoid : Token → Bool
  | .alternatives branches => allVoid branches
  | _ => false

def allVoid : List (List Token) → Bool
  | [] => true
  | branch :: rest => isVoid branch && allVoid rest

def isVoid : List Token → Bool
  | [] => true
  | t :: rest => t.isVoid && isVoid rest

end

mutual

/-- What may be left of an input behind a token. -/
def Token.leaves : Token → List UInt8 → List (List UInt8)
  | .literal c, input => after (bytesOf c) input
  | .any, input => if input.isEmpty then [] else [input.drop 1]
  | .star, input => tailsOf input
  | .anyDirectories, input => distinct (input :: afterSlashes input)
  | .anythingBelow, input => (after [47] input).flatMap tailsOf
  | .directoriesBetween, input =>
    (after [47] input).flatMap fun rest => distinct (rest :: afterSlashes rest)
  | .oneOf negated ranges, input =>
    match input with
    | b :: rest => if ranges.any (inRange b) != negated then [rest] else []
    | [] => []
  | .alternatives branches, input =>
    if allVoid branches then [input] else distinct (leavesAny branches input)

/-- What may be left behind one of several branches; a branch that stands for nothing is left out. -/
def leavesAny : List (List Token) → List UInt8 → List (List UInt8)
  | [], _ => []
  | branch :: rest, input =>
    (if isVoid branch then [] else leavesAll branch [input]) ++ leavesAny rest input

/-- What may be left behind all tokens of a sequence. -/
def leavesAll : List Token → List (List UInt8) → List (List UInt8)
  | [], inputs => inputs
  | t :: rest, inputs => leavesAll rest (distinct (inputs.flatMap t.leaves))

end

/-- The pattern matches the whole path. -/
def isMatch (tokens : List Token) (path : String) : Bool :=
  match tokens with
  | [.anyDirectories] => true
  | _ => (leavesAll tokens [path.toUTF8.toList]).any (·.isEmpty)

end Glob

end TestMigration
