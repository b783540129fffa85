import TestMigration.Grammar.Statement
import TestMigration.Grammar.Markup

/-!
# Source files

`parse` reads a whole file. The rules of the grammar are tied together by a bound on how deeply they
call each other, which is taken from the length of the file so that it is never reached. Comments are
put into the tree last. Of a file that has a syntax error, `stop` says how far it can be read.
-/

namespace TestMigration

/-- Which notation a file is written in. -/
inductive Grammar where
  /-- Type assertions in angle brackets, no markup. -/
  | plain
  /-- Markup elements, no type assertions. -/
  | markup
deriving DecidableEq, Repr, Inhabited

namespace Grammar

open Scanner

def production (g : Rules) : Rules
  | .statement => statement g
  | .block => block g
  | .expressions => expressions g
  | .expression => expression g
  | .binary least => binary g least
  | .operand => operand g
  | .chained => chained g
  | .constructed => constructed g
  | .arguments => arguments g
  | .pattern => pattern g
  | .parameters => parameters g
  | .type => type g
  | .typeArguments => typeArguments g
  | .typeParameters => typeParameters g
  | .classBody => classBody g
  | .element => element g

def rules : Nat → Rules
  | 0 => fun _ => failure
  | n + 1 => production (rules n)

/-- The line at the beginning of a file that names its interpreter. -/
def hashBang : Scanner Node := do
  let (_, span) ← immediate fun t =>
    if Text.startsWith t "#!" then some (t.takeWhile (· != '\n'), t.dropWhile (· != '\n')) else none
  return .mk .part .hashBang span []

def sourceFile (g : Rules) : Scanner Node := do
  let first ← optional hashBang
  let ss ← many (g .statement)
  modify Scan.skip
  let s ← get
  guard s.rest.isEmpty
  return .mk .part .program ⟨0, s.pos⟩ (first.toList ++ ss)

def start (grammar : Grammar) (source : Text) : Scan := { rest := source, pos := 0, markup := grammar == .markup }

/-- The syntax tree of a file; none when it has a syntax error. -/
def parse (grammar : Grammar) (source : Text) : Option Node :=
  match sourceFile (rules (16 * source.length + 64)) (start grammar source) with
  | some (tree, last) => some (last.comments.foldr Node.insertComment tree)
  | none => none

/-- Where the statements end that can be read from the beginning of a file. -/
def stop (grammar : Grammar) (source : Text) : Nat :=
  let statements : Scanner Unit := do
    let _ ← optional hashBang
    let _ ← many (rules (16 * source.length + 64) .statement)
    modify Scan.skip
  match statements (start grammar source) with
  | some (_, last) => last.pos
  | none => 0

end Grammar

end TestMigration
