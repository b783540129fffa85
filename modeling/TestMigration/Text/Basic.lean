/-!
# Texts and byte offsets

A text is the list of its characters; a position in it counts UTF-8 bytes. `Text.slice` cuts the
characters that lie between two positions, and `Span` names such a pair of positions.
-/

namespace TestMigration

/-- A text as the list of its characters. Offsets into it count UTF-8 bytes. -/
abbrev Text := List Char

/-- A half-open range of byte offsets. -/
structure Span where
  start : Nat
  stop : Nat
deriving DecidableEq, Repr, Inhabited

namespace Span

/-- A span that covers no byte, such as the place of an insertion. -/
def isEmpty (s : Span) : Bool := s.stop ≤ s.start

/-- `outer` reaches at least from the start to the stop of `inner`. -/
def contains (outer inner : Span) : Bool :=
  outer.start ≤ inner.start && inner.stop ≤ outer.stop

end Span

namespace Text

def size : Text → Nat
  | [] => 0
  | c :: t => c.utf8Size + size t

/-- The text after its first `n` bytes. -/
def dropBytes (n : Nat) : Text → Text
  | [] => []
  | c :: t => if n = 0 then c :: t else dropBytes (n - c.utf8Size) t

/-- The whole characters among the first `n` bytes. -/
def takeBytes (n : Nat) : Text → Text
  | [] => []
  | c :: t => if n < c.utf8Size then [] else c :: takeBytes (n - c.utf8Size) t

/-- The characters between two byte offsets. -/
def slice (t : Text) (start stop : Nat) : Text :=
  (t.dropBytes start).takeBytes (stop - start)

def cut (t : Text) (s : Span) : String := String.ofList (t.slice s.start s.stop)

def startsWith (t : Text) (p : String) : Bool := p.toList.isPrefixOf t

def endsWith (t : Text) (p : String) : Bool := p.toList.isSuffixOf t

/-- `t` without the characters at its back that satisfy `p`. -/
def dropBackWhile (p : Char → Bool) (t : Text) : Text := (t.reverse.dropWhile p).reverse

/-- The pieces between the characters equal to `sep`. -/
def splitAt (sep : Char) : Text → List Text
  | [] => [[]]
  | c :: t =>
    if c = sep then [] :: splitAt sep t
    else
      match splitAt sep t with
      | [] => [[c]]
      | piece :: rest => (c :: piece) :: rest

/-- `t` with every occurrence of a nonempty pattern replaced; the number counts the characters of an
occurrence just replaced that are still to be passed over. -/
def replaceGo (pattern new : Text) : Nat → Text → Text
  | _, [] => []
  | skip + 1, _ :: t => replaceGo pattern new skip t
  | 0, c :: t =>
    if pattern.isPrefixOf (c :: t) then new ++ replaceGo pattern new (pattern.length - 1) t
    else c :: replaceGo pattern new 0 t

/-- `t` with every occurrence of `pattern` replaced by `new`, from left to right. The empty pattern
occurs before each character and at the end. -/
def replaceAll (pattern new t : Text) : Text :=
  if pattern.isEmpty then new ++ t.flatMap (fun c => c :: new) else replaceGo pattern new 0 t

end Text

end TestMigration
