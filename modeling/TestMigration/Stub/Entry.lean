import TestMigration.Expr.Embed
import TestMigration.Mock.Bindings

/-!
# Entries of a stub

A configuration chain says what a stub does, either for all calls or for calls whose first arguments
match. `Entry.parse` reads one such chain; `implementation` writes several of them as one function,
with a branch for each condition and the unconditional entry last.
-/

namespace TestMigration

/-- Steps that say what a stub does. -/
def applySteps : List String :=
  ["returns", "resolves", "rejects", "throws", "callsFake", "returnsArg"]

/-- What a stub does when it is called. -/
inductive StubResult where
  | returns (value : Option Site)
  | resolves (value : Option Site)
  | rejects (error : Option Site)
  | throws (error : Option Site)
  | callsFake (function : Site)
  | returnsArg (index : Site)
deriving Repr, Inhabited

namespace StubResult

/-- What a step says that a stub does. -/
def parse (step : Step) : Option StubResult :=
  match step.arguments? with
  | none => none
  | some args =>
    match step.name, args with
    | "returns", [] => some (.returns none)
    | "returns", [v] => some (.returns (some v))
    | "resolves", [] => some (.resolves none)
    | "resolves", [v] => some (.resolves (some v))
    | "rejects", [] => some (.rejects none)
    | "rejects", [e] => some (.rejects (some e))
    | "throws", [] => some (.throws none)
    | "throws", [e] => some (.throws (some e))
    | "callsFake", [f] => some (.callsFake f)
    | "returnsArg", [n] => some (.returnsArg n)
    | _, _ => none

def valueExpr : Option Site → Expr
  | some v => v.embed
  | none => .lit "undefined"

def errorExpr : Option Site → Expr
  | some e =>
    if e.kind == .string then
      .callPath "Object.assign" [.new (.ident "Error") [], .object [.mk "name" e.embed]]
    else e.embed
  | none => .new (.ident "Error") []

/-- The value that a call gives, unless it throws. -/
def returned? : StubResult → Option Expr
  | returns v => some (valueExpr v)
  | resolves v => some (.callPath "Promise.resolve" [valueExpr v])
  | rejects e => some (.callPath "Promise.reject" [errorExpr e])
  | returnsArg n => some (.index (.ident "args") n.embed)
  | callsFake f => some (.call f.embed [.unary "..." (.ident "args")])
  | throws _ => none

/-- The statement that ends a branch. -/
def statement (r : StubResult) : Stmt :=
  match r with
  | throws e => .throw (errorExpr e)
  | _ =>
    match r.returned? with
    | some e => .return e
    | none => .returnNothing

/-- A function that does this for all calls. -/
def function (r : StubResult) : Expr :=
  match r, r.returned? with
  | callsFake f, _ => f.embed
  | returnsArg _, some body => .arrow ["...args"] body
  | _, some body => .arrow [] body
  | _, none => .arrowBlock [] [r.statement]

end StubResult

/-- What an argument has to be. -/
inductive Matcher where
  /-- Anything. -/
  | any
  /-- Identical with a primitive. -/
  | strict (value : Site)
  /-- Deeply equal. -/
  | deep (value : Site)
deriving Repr, Inhabited

/-- Kinds that are compared by identity. -/
def Kind.isPrimitive : Kind → Bool
  | .string | .template | .number | .trueLiteral | .falseLiteral | .nullLiteral | .undefined => true
  | _ => false

namespace Matcher

/-- A number with a sign before it. -/
def isSigned (s : Site) : Bool :=
  s.kind == .unary && ((s.child? .argument).map (·.kind == .number)).getD false

/-- What an argument of `withArgs` asks for, or why it cannot be kept. -/
def parse (ctx : Context) (s : Site) : Except String Matcher :=
  let chain := Chain.walk ctx.source s
  if chain.subjectIs ctx.names.sinon ctx.source && chain.names.head? == some "match" then
    if chain.names == ["match", "any"] then .ok any
    else .error ("unsupported matcher \x60" ++ ctx.text s ++ "\x60")
  else if s.kind.isPrimitive || isSigned s then .ok (strict s)
  else .ok (deep s)

/-- The text by which conditions are compared. -/
def text (source : Text) : Matcher → String
  | any => "sinon.match.any"
  | strict s | deep s => s.text source

end Matcher

/-- One configuration of a stub. -/
structure Entry where
  /-- What the arguments have to be; none for all calls. -/
  matchers : Option (List Matcher)
  result : StubResult
deriving Repr, Inhabited

/-- The matchers of all arguments, or the first reason why there are none. -/
def Matcher.parseAll (ctx : Context) : List Site → Except String (List Matcher)
  | [] => .ok []
  | s :: rest => do
    let m ← Matcher.parse ctx s
    let ms ← Matcher.parseAll ctx rest
    return m :: ms

namespace Entry

/-- The entry of an optional `withArgs` step and the step that says what is done. -/
def ofSteps (ctx : Context) (withArgs : Option Step) (apply : Step) :
    Except String (Option Entry) :=
  match StubResult.parse apply with
  | none => .error ("unrecognized configuration \x60." ++ apply.name ++ "()\x60")
  | some result =>
    match (withArgs.map Step.args).getD [] with
    | [] => .ok (some { matchers := none, result })
    | args => do
      let matchers ← Matcher.parseAll ctx args
      return some { matchers := some matchers, result }

/-- The entry that a chain's steps configure; none for no steps at all, and otherwise the reason why
they cannot be kept. -/
def parse (ctx : Context) (steps : List Step) : Except String (Option Entry) :=
  match steps with
  | [] => .ok none
  | [only] =>
    if only.name == "withArgs" then .error "withArgs(...) without a result"
    else ofSteps ctx none only
  | [first, apply] =>
    if first.name == "withArgs" && first.isCall then ofSteps ctx (some first) apply
    else unrecognized
  | _ => unrecognized
where
  unrecognized : Except String (Option Entry) :=
    .error ("unrecognized configuration \x60."
      ++ String.intercalate "." (steps.map (·.name)) ++ "\x60")

/-- The texts of the matchers; none for the entry of all calls. -/
def conditionText (source : Text) (e : Entry) : Option (List String) :=
  e.matchers.map fun ms => ms.map (·.text source)

/-- `condition && check` for each matcher from position `i` on that asks for something. -/
def conditionGo (util : String) : Nat → Expr → List Matcher → Expr
  | _, condition, [] => condition
  | i, condition, m :: rest =>
    let actual : Expr := .index (.ident "args") (.lit (toString i))
    let next : Expr :=
      match m with
      | .any => condition
      | .strict s => .binary condition "&&" (.binary actual "===" s.embed)
      | .deep s => .binary condition "&&" (.callPath util [actual, s.embed])
    conditionGo util (i + 1) next rest

/-- The condition that there are enough arguments and that each of them matches. -/
def condition (util : String) (ms : List Matcher) : Expr :=
  conditionGo util 0
    (.binary (.member (.ident "args") "length") ">=" (.lit (toString ms.length))) ms

/-- The branch of an entry that has a condition. -/
def branch? (util : String) (e : Entry) : Option Stmt :=
  e.matchers.map fun ms => .ifThen (condition util ms) [e.result.statement]

end Entry

/-- One function that does what the entries say: the first branch whose condition holds, and otherwise
the entry for all calls. -/
def implementation (util : String) (entries : List Entry) : Expr :=
  let fallback := entries.find? (·.matchers.isNone)
  let branches := entries.filterMap (Entry.branch? util)
  if branches.isEmpty then
    match fallback with
    | some e => e.result.function
    | none => .arrow [] (.lit "undefined")
  else
    let last :=
      match fallback with
      | some e => e.result.statement
      | none => .return (.lit "undefined")
    .arrowBlock ["...args"] (branches ++ [last])

end TestMigration
