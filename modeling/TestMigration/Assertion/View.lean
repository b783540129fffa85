import TestMigration.Expr.Embed
import TestMigration.Mock.Bindings

/-!
# Assertion views

Every form of assertion comes down to the value under test, the words that carry meaning, and flags.
`View.ofChain?` reads all four surface forms, so the families of assertions look at words only.
-/

namespace TestMigration

/-- Words that mean nothing when they are accessed as properties. -/
def fillers : List String :=
  ["to", "be", "been", "is", "that", "which", "and", "has", "have", "with", "at", "of", "same",
    "but", "does", "a", "an", "the", "still", "also"]

/-- An assertion, whatever form it was written in. -/
structure View where
  /-- The value under test. -/
  value : Expr
  /-- The steps that carry meaning, in the order of the file. -/
  words : List Step := []
  negated : Bool := false
  deep : Bool := false
  eventually : Bool := false
  nested : Bool := false
  own : Bool := false
deriving Inhabited

namespace View

/-- The steps behind the first `should` that is accessed as a property, with that step. -/
def afterShould : List Step → Option (Step × List Step)
  | [] => none
  | s :: rest => if s.name == "should" && !s.isCall then some (s, rest) else afterShould rest

/-- The steps with the first argument of the last one taken out as the value. -/
def takeValue (steps : List Step) : Option (Site × List Step) := do
  let last ← steps.getLast?
  let args ← last.arguments?
  let value ← args.head?
  return (value, steps.dropLast ++ [{ last with arguments? := some (args.drop 1) }])

/-- The value under test and the steps that assert something about it. -/
def split? (ctx : Context) (c : Chain) : Option (Site × List Step) :=
  match afterShould c.steps with
  | some (step, rest) => (step.site.child? .object).map fun object => (object.core, rest)
  | none =>
    if c.subject.kind == .call then do
      let f ← c.subject.child? .callee
      let callee := ctx.text f
      guard (f.kind == .identifier && (callee == ctx.names.expect || callee == ctx.names.should))
      match c.subject.callArguments with
      | [value] | [value, _] => return (value, c.steps)
      | _ => none
    else if c.subjectIs ctx.names.chai ctx.source then
      match c.steps with
      | first :: rest =>
        if first.name == "expect" then
          match first.args with
          | [value] | [value, _] => some (value, rest)
          | _ => none
        else none
      | [] => none
    else if c.subjectIs ctx.names.should ctx.source then takeValue c.steps
    else none

/-- The view with one more step: a flag is set, a filler is passed over, all else is a word. -/
def addStep (v : View) (s : Step) : View :=
  if s.isCall then { v with words := v.words ++ [s] }
  else if s.name == "not" then { v with negated := !v.negated }
  else if s.name == "deep" then { v with deep := true }
  else if s.name == "eventually" || s.name == "finally" then { v with eventually := true }
  else if s.name == "nested" then { v with nested := true }
  else if s.name == "own" then { v with own := true }
  else if fillers.contains s.name then v
  else { v with words := v.words ++ [s] }

/-- The assertion that a chain makes, if it makes one. -/
def ofChain? (ctx : Context) (c : Chain) : Option View := do
  let (value, steps) ← split? ctx c
  let v := steps.foldl addStep { value := value.embed }
  guard (!v.words.isEmpty)
  return v

/-- The only word. -/
def single? (v : View) : Option Step :=
  match v.words with
  | [w] => some w
  | _ => none

/-- The only word, if it is one of the names and has no arguments. -/
def bare? (v : View) (names : List String) : Option Step :=
  v.single?.filter fun w => names.contains w.name && w.args.isEmpty

/-- The only word, if it calls one of the names with so many arguments. -/
def called? (v : View) (names : List String) (least most : Nat) : Option Step :=
  v.single?.filter fun w =>
    w.isCall && names.contains w.name && least ≤ w.args.length && w.args.length ≤ most

def positive (v : View) : View := { v with negated := false }

end View

/-! ### Pieces of generated assertions -/

/-- A call of a function of the assert module. -/
def assertCall (ctx : Context) (method : String) (args : List Expr) : Expr :=
  .callPath (ctx.names.assert ++ "." ++ method) args

/-- The assertion that a truth value is true, or false when negated. -/
def predicate (ctx : Context) (e : Expr) (negated : Bool) : Expr :=
  if negated then assertCall ctx "strictEqual" [e, .lit "false"] else assertCall ctx "ok" [e]

/-- The function for the positive or for the negated assertion. -/
def pick (negated : Bool) (positive negative : String) : String :=
  if negated then negative else positive

/-- The function that compares two values. -/
def comparison (deep negated : Bool) : String :=
  if deep then pick negated "deepStrictEqual" "notDeepStrictEqual"
  else pick negated "strictEqual" "notStrictEqual"

end TestMigration
