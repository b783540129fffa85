import TestMigration.Assertion.View

/-!
# Equality, existence, truth

The families of assertions that look at a single word: equality and deep equality, existence and
emptiness, and the literals `true` and `false`.
-/

namespace TestMigration

namespace Assertion

/-- `eql` and its like, and `equal` with the flag `deep`. -/
def deepEquality (ctx : Context) (v : View) : Option Expr := do
  let word ← v.called? ["eql", "eqls", "deepEqual"] 1 2
    <|> (v.called? ["equal", "equals", "eq"] 1 2).filter fun _ => v.deep
  return assertCall ctx (comparison true v.negated) (v.value :: word.args.map Site.embed)

/-- `equal` and its like without the flag `deep`. -/
def strictEquality (ctx : Context) (v : View) : Option Expr := do
  guard (!v.deep)
  let word ← v.called? ["equal", "equals", "eq", "exactly", "strictEqual"] 1 2
  return assertCall ctx (comparison false v.negated) (v.value :: word.args.map Site.embed)

/-- What existence comes to: missing is `null` as well as `undefined`, which the strict variant of the
module can say only by a loose comparison. -/
def exists' (ctx : Context) (v : View) : Expr :=
  if ctx.names.assertStrict then predicate ctx (.binary v.value "!=" (.lit "null")) v.negated
  else assertCall ctx (pick v.negated "notEqual" "equal") [v.value, .lit "undefined"]

/-- Existence, emptiness, and the values `null`, `undefined` and `NaN`. -/
def existence (ctx : Context) (v : View) : Option Expr := do
  let word ← v.bare? ["exist", "exists", "null", "undefined", "empty", "NaN"]
  match word.name with
  | "exist" | "exists" => return exists' ctx v
  | "empty" =>
    return assertCall ctx (pick v.negated "equal" "notEqual")
      [.member v.value "length", .lit "0"]
  | "NaN" => return predicate ctx (.callPath "Number.isNaN" [v.value]) v.negated
  | literal =>
    return assertCall ctx (comparison false v.negated) [v.value, .lit literal]

/-- `true`, `false` and `ok`; the last has no negated form that keeps its meaning. -/
def boolean (ctx : Context) (v : View) : Option Expr := do
  let word ← v.bare? ["true", "false", "ok"]
  match word.name with
  | "ok" => if v.negated then none else return assertCall ctx "ok" [v.value]
  | literal =>
    return assertCall ctx (comparison false v.negated) [v.value, .lit literal]

end Assertion

end TestMigration
