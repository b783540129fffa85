import TestMigration.Assertion.View
import TestMigration.Rule.Synthesis

/-!
# Rules for stubs, spies and sandboxes

Sandboxes go, since the mock tracker of the test module plays their part. Functions of their own become
`mock.fn`, members that are replaced become `mock.method`, and what is asked about calls goes through
the `mock` property of the mocked function.
-/

namespace TestMigration

/-- The rules for chains of the mocking library. -/
inductive MockRule where
  | sandboxCreation
  | restoreAll
  | mockAssert
  | mockAssertArguments
  | stubConfiguration
  | methodSpy
  | anonymousFake
  | callArguments
  | stubInspection
deriving DecidableEq, Repr, Inhabited

namespace Mock

def onFactory (ctx : Context) (c : Chain) : Bool :=
  c.subject.kind == .identifier && ctx.mocks.isFactory ctx.names (ctx.text c.subject)

/-! ### Sandboxes -/

/-- The statement that does nothing but give a variable its value, the site, with the variable. -/
def soleDeclaration? (ctx : Context) (value : Site) : Option (Site × String) := do
  let parent ← value.parent?
  let statement ← parent.parent?
  match parent.kind with
  | .variableDeclarator =>
    let name ← parent.child? .name
    guard (name.kind == .identifier && statement.declarators.length == 1)
    return (statement, ctx.text name)
  | .assignment =>
    let left ← parent.child? .left
    guard (left.kind == .identifier && statement.kind == .expressionStatement)
    return (statement, ctx.text left)
  | _ => none

/-- A sandbox that is kept in a variable. -/
def sandboxCreation (ctx : Context) (c : Chain) : Option Synthesis := do
  guard (c.isSandboxCreation ctx.source ctx.names)
  let (statement, binding) ← soleDeclaration? ctx c.root
  return .removeDeclaration statement binding

def restoreAll (ctx : Context) (c : Chain) : Option Synthesis := do
  guard (onFactory ctx c)
  match c.steps with
  | [step] =>
    guard (step.name == "restore" && step.isCall && step.args.isEmpty)
    return c.replaceBy (.callPath (ctx.names.mock ++ ".restoreAll") [])
  | _ => none

/-! ### Assertions about calls -/

def callCount (function : Expr) : Expr := (Expr.member function "mock").method "callCount" []

/-- The check of an assertion about calls, with the function it is about and the other arguments. -/
def assertedCheck? (ctx : Context) (c : Chain) : Option (String × Site × List Site) := do
  guard (c.subjectIs ctx.names.sinon ctx.source)
  match c.steps with
  | [first, check] =>
    guard (first.name == "assert" && !first.isCall)
    match check.arguments? with
    | some (function :: rest) => return (check.name, function, rest)
    | _ => none
  | _ => none

/-- The number of calls that a word stands for. -/
def countWord? (word : String) : Option String :=
  match word with
  | "notCalled" => some "0"
  | "calledOnce" => some "1"
  | "calledTwice" => some "2"
  | "calledThrice" => some "3"
  | _ => none

/-- Assertions about the number of calls. -/
def mockAssert (ctx : Context) (c : Chain) : Option Synthesis := do
  let (check, function, rest) ← assertedCheck? ctx c
  let count := callCount function.embed
  match check, rest with
  | "called", [] => return c.replaceBy (predicate ctx (.binary count ">" (.lit "0")) false)
  | "callCount", [n] => return c.replaceBy (assertCall ctx "strictEqual" [count, n.embed])
  | word, [] =>
    let expected ← countWord? word
    return c.replaceBy (assertCall ctx "strictEqual" [count, .lit expected])
  | _, _ => none

/-- Some call of a function had the given arguments, or began with them. -/
def calledWith (ctx : Context) (function : Expr) (args : List Site) (exactly : Bool) : Expr :=
  let all := Expr.member (.ident "call") "arguments"
  let actual := if exactly then all
    else all.method "slice" [.lit "0", .lit (toString args.length)]
  let check := Expr.callPath ctx.names.util [actual, .array (args.map Site.embed)]
  (Expr.member (.member function "mock") "calls").method "some" [.arrow ["call"] check]

/-- Whether a check about arguments wants all of them. -/
def wantsExactly? (word : String) : Option Bool :=
  match word with
  | "calledWith" => some false
  | "calledWithExactly" => some true
  | _ => none

/-- Assertions about the arguments of calls. -/
def mockAssertArguments (ctx : Context) (c : Chain) : Option Synthesis := do
  let (check, function, expected) ← assertedCheck? ctx c
  let exactly ← wantsExactly? check
  return c.replaceBy (predicate ctx (calledWith ctx function.embed expected exactly) false)

/-! ### Stubs and spies -/

/-- Configuring steps that have no counterpart. Their chains are configurations all the same, so that
the whole stub is kept. -/
def unsupportedSteps : List String :=
  ["onCall", "onFirstCall", "onSecondCall", "onThirdCall", "callThrough", "returnsThis", "yields",
    "yieldsTo", "callsArg", "callsArgWith", "resolvesArg"]

def boundVariable? (ctx : Context) (value : Site) : Option String := do
  let parent ← value.parent?
  let name ← match parent.kind with
    | .variableDeclarator => parent.child? .name
    | .assignment => parent.child? .left
    | _ => none
  guard (name.kind == .identifier)
  return ctx.text name

/-- A stub for a member of an object, perhaps with its configuration. -/
def methodCreation (ctx : Context) (c : Chain) : Option Synthesis := do
  guard (onFactory ctx c)
  match c.steps with
  | creation :: tail =>
    guard (creation.name == "stub" && creation.args.length == 2)
    match creation.methodTarget? ctx.source with
    | none => return .skip "stubbed member name is not a string literal"
    | some (object, member) =>
      return .configure
        { subject := ctx.text object, member, object := some object
          binding := boundVariable? ctx c.root, isCreation := true, tail, root := c.root }
  | [] => none

/-- A configured stub of its own that is kept in a variable: what is configured later has to be merged
with what is configured here. -/
def anonymousCreation (ctx : Context) (c : Chain) : Option Synthesis := do
  guard (onFactory ctx c)
  match c.steps with
  | creation :: next :: more =>
    guard (creation.name == "stub" && creation.isCall && creation.args.isEmpty)
    let variableName ← boundVariable? ctx c.root
    return .configure
      { subject := variableName, member := "", object := none, binding := some variableName
        isCreation := true, tail := next :: more, root := c.root }
  | _ => none

/-- A configuration of a stub through its variable. -/
def variableConfiguration (ctx : Context) (c : Chain) : Option Synthesis := do
  guard (c.subject.kind == .identifier)
  let variableName := ctx.text c.subject
  let binding ← ctx.mocks.stub? variableName
  let first ← c.steps.head?
  guard (first.isCall && (first.name == "withArgs" || applySteps.contains first.name
    || unsupportedSteps.contains first.name))
  let (subject, member) := match binding with
    | .method object member => (object, member)
    | .anonymous => (variableName, "")
  return .configure
    { subject, member, object := none, binding := some variableName, isCreation := false
      tail := c.steps, root := c.root }

/-- Chains that make or configure a stub. -/
def stubConfiguration (ctx : Context) (c : Chain) : Option Synthesis :=
  methodCreation ctx c <|> anonymousCreation ctx c <|> variableConfiguration ctx c

def methodSpy (ctx : Context) (c : Chain) : Option Synthesis := do
  guard (onFactory ctx c)
  match c.steps with
  | [spy] =>
    guard (spy.name == "spy" && spy.args.length == 2)
    return c.replaceBy (.callPath (ctx.names.mock ++ ".method") (spy.args.map Site.embed))
  | _ => none

/-- What the function of a fake does: nothing for a fake without behaviour. -/
def fakeArguments? (c : Chain) : Option (List Expr) :=
  match c.steps with
  | [create] =>
    if create.isCall && creationSteps.contains create.name then
      match create.args with
      | [] => some []
      | [function] => if create.name == "stub" then none else some [function.embed]
      | _ => none
    else none
  | [create, apply] =>
    if (create.name == "fake" && !create.isCall)
        || (create.name == "stub" && create.isCall && create.args.isEmpty) then
      (StubResult.parse apply).map fun result => [result.function]
    else none
  | _ => none

/-- A stub, spy or fake of its own. -/
def anonymousFake (ctx : Context) (c : Chain) : Option Synthesis := do
  guard (onFactory ctx c)
  let args ← fakeArguments? c
  return c.replaceBy (.callPath (ctx.names.mock ++ ".fn") args)

/-! ### Looking at calls -/

/-- The mocked function that a chain looks at, and the steps that look at it. The function is a stub's
variable or a member that was replaced. -/
def inspected? (ctx : Context) (c : Chain) : Option (Expr × List Step) := do
  guard (c.subject.kind == .identifier)
  let subject := ctx.text c.subject
  if ctx.mocks.isStub subject then return (c.subject.embed, c.steps)
  match c.steps with
  | first :: rest =>
    guard (!first.isCall && ctx.mocks.stubbedMembers.contains (subject ++ "." ++ first.name))
    return (first.site.embed, rest)
  | [] => none

/-- Whether some call had the given arguments. -/
def callArguments (ctx : Context) (c : Chain) : Option Synthesis := do
  let (function, steps) ← inspected? ctx c
  match steps with
  | [check] =>
    let exactly ← wantsExactly? check.name
    guard check.isCall
    return c.replaceBy (calledWith ctx function check.args exactly)
  | _ => none

/-- The call that a word picks from the list of calls. -/
def nthCall? (calls : Expr) (word : String) : Option Expr :=
  match word with
  | "firstCall" => some (.index calls (.lit "0"))
  | "secondCall" => some (.index calls (.lit "1"))
  | "thirdCall" => some (.index calls (.lit "2"))
  | "lastCall" => some (calls.method "at" [.lit "-1"])
  | _ => none

/-- What one step says about the calls of a function. -/
def inspectedBy? (function : Expr) (step : Step) : Option Expr :=
  let tracker := Expr.member function "mock"
  let count := callCount function
  if step.isCall then
    match step.name with
    | "resetHistory" | "resetCalls" => some (tracker.method "resetCalls" [])
    | "restore" => some (tracker.method "restore" [])
    | _ => none
  else
    match step.name with
    | "callCount" => some count
    | "called" => some (.binary count ">" (.lit "0"))
    | "args" => some ((Expr.member tracker "calls").method "map"
        [.arrow ["call"] (.member (.ident "call") "arguments")])
    | word => (countWord? word).map fun n => .binary count "===" (.lit n)

/-- The arguments of the call that a step picks. -/
def argumentsOf? (function : Expr) (step : Step) : Option Expr := do
  let calls := Expr.member (.member function "mock") "calls"
  let call ← match step.arguments? with
    | none => nthCall? calls step.name
    | some [n] => if step.name == "getCall" then some (Expr.index calls n.embed) else none
    | some _ => none
  return .member call "arguments"

/-- Numbers of calls, recorded arguments, forgetting and restoring. -/
def stubInspection (ctx : Context) (c : Chain) : Option Synthesis := do
  let (function, steps) ← inspected? ctx c
  match steps with
  | [step] => (inspectedBy? function step).map c.replaceBy
  | [pick, args] =>
    guard (args.name == "args" && !args.isCall)
    (argumentsOf? function pick).map c.replaceBy
  | _ => none

end Mock

namespace MockRule

def all : List MockRule :=
  [sandboxCreation, restoreAll, mockAssert, mockAssertArguments, stubConfiguration, methodSpy,
    anonymousFake, callArguments, stubInspection]

def name : MockRule → String
  | sandboxCreation => "sandbox-creation"
  | restoreAll => "restore-all"
  | mockAssert => "mock-assert"
  | mockAssertArguments => "mock-assert-arguments"
  | stubConfiguration => "stub-configuration"
  | methodSpy => "method-spy"
  | anonymousFake => "anonymous-fake"
  | callArguments => "call-arguments"
  | stubInspection => "stub-inspection"

/-- What the code that a rule makes needs. -/
def requires : MockRule → List ModuleKind
  | sandboxCreation | stubInspection => []
  | restoreAll | stubConfiguration | methodSpy | anonymousFake => [.mock]
  | mockAssert => [.assert]
  | mockAssertArguments => [.assert, .util]
  | callArguments => [.util]

/-- What the rule asks for, if it recognises the chain. -/
def synthesis? (r : MockRule) (ctx : Context) (c : Chain) : Option Synthesis :=
  match r with
  | sandboxCreation => Mock.sandboxCreation ctx c
  | restoreAll => Mock.restoreAll ctx c
  | mockAssert => Mock.mockAssert ctx c
  | mockAssertArguments => Mock.mockAssertArguments ctx c
  | stubConfiguration => Mock.stubConfiguration ctx c
  | methodSpy => Mock.methodSpy ctx c
  | anonymousFake => Mock.anonymousFake ctx c
  | callArguments => Mock.callArguments ctx c
  | stubInspection => Mock.stubInspection ctx c

end MockRule

end TestMigration
