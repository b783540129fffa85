import TestMigration.Assertion.View

/-!
# Thrown errors and promises

Assertions about what a function throws and about how a promise settles.
-/

namespace TestMigration

namespace Assertion

/-- The matcher of an expected error: none without arguments, and no answer for arguments that cannot
be kept. -/
def errorMatcher? (args : List Site) : Option (List Expr) :=
  match args with
  | [] => some []
  | [only] =>
    match only.kind with
    | .string | .template => some [.object [.mk "message" only.embed]]
    | _ => some [only.embed]
  | [cls, message] => do
    let err : Expr := .ident "err"
    let check ← match message.kind with
      | .string | .template => some (Expr.binary (.member err "message") "===" message.embed)
      | .regex => some (message.embed.method "test" [.member err "message"])
      | _ => none
    return [.arrow ["err"] (.binary (.binary err "instanceof" cls.embed) "&&" check)]
  | _ => none

/-- What a function throws. A negated assertion about a certain error has no counterpart. -/
def throws (ctx : Context) (v : View) : Option Expr := do
  let word ← v.single?
  guard (["throw", "throws", "throwError", "Throw"].contains word.name)
  if v.negated then
    guard word.args.isEmpty
    return assertCall ctx "doesNotThrow" [v.value]
  else
    let matcher ← errorMatcher? word.args
    return assertCall ctx "throws" (v.value :: matcher)

/-- The word that speaks about what a promise gives, its argument, and whether it compares deeply. -/
def settledWord? (v : View) : Option (Site × Bool) :=
  let argument (w : Option Step) (deep : Bool) : Option (Site × Bool) :=
    (w.bind (·.args.head?)).map fun a => (a, deep)
  argument (v.called? ["fulfilledWith"] 1 1) false
    <|> argument (v.called? ["become"] 1 1) true
    <|> (if v.eventually then
          argument (v.called? ["equal", "equals", "eq"] 1 1) v.deep
            <|> argument (v.called? ["eql", "eqls", "deepEqual"] 1 1) true
        else none)

/-- How a promise settles. What it gives is checked behind `then`, so that a promise remains. -/
def promise (ctx : Context) (v : View) : Option Expr :=
  if (v.bare? ["fulfilled", "resolved"]).isSome then
    some (assertCall ctx (pick v.negated "doesNotReject" "rejects") [v.value])
  else if (v.bare? ["rejected"]).isSome then
    some (assertCall ctx (pick v.negated "rejects" "doesNotReject") [v.value])
  else
    match v.called? ["rejectedWith"] 1 2 with
    | some word =>
      if v.negated then none
      else (errorMatcher? word.args).map fun m => assertCall ctx "rejects" (v.value :: m)
    | none => (settledWord? v).map fun (expected, deep) =>
      let check := assertCall ctx (comparison deep v.negated) [.ident "actual", expected.embed]
      v.value.method "then" [.arrow ["actual"] check]

end Assertion

end TestMigration
