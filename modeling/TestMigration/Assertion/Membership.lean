import TestMigration.Assertion.Simple

/-!
# Membership, containment, ranges and types

Words that look into a value. A property and a length may hand the assertion on to what they lead to:
`membershipWith` then asks its argument what the remaining words say about that value, and `buildSync`
answers with all families that check a value at once.
-/

namespace TestMigration

namespace Assertion

/-- The literal text of an argument. -/
def literalArgument? (ctx : Context) (w : Step) (i : Nat) : Option String :=
  w.args[i]?.bind (·.stringValue? ctx.source)

def compareValue (ctx : Context) (v : View) (actual expected : Expr) : Expr :=
  assertCall ctx (comparison v.deep v.negated) [actual, expected]

/-- The segments of a path in dot and bracket notation. -/
def pathSegments (path : String) : List String :=
  let dots := (path.toList.map fun c => if c == '[' then '.' else c).filter (· != ']')
  ((Text.splitAt '.' dots).filter (!·.isEmpty)).map String.ofList

def literalArguments? (ctx : Context) : List Site → Option (List String)
  | [] => some []
  | s :: rest => do
    let text ← s.stringValue? ctx.source
    let texts ← literalArguments? ctx rest
    return text :: texts

/-- The segments that a nested property goes through, and the value expected at their end. -/
def nestedPath? (ctx : Context) (v : View) : Option (List String × Option Expr) :=
  match (v.called? ["property"] 1 2).filter fun _ => v.nested with
  | some word => do
    let path ← literalArgument? ctx word 0
    return (pathSegments path, word.args[1]?.map Site.embed)
  | none =>
    match v.single? with
    | some word =>
      if word.isCall && word.name == "propertyByPath" && !word.args.isEmpty then
        (literalArguments? ctx word.args).map fun segments => (segments, none)
      else none
    | none => none

/-- A property deep inside the value. -/
def nestedProperty (ctx : Context) (v : View) : Option Expr := do
  let (segments, expected) ← nestedPath? ctx v
  guard (!segments.isEmpty)
  let access := segments.foldl Expr.optionalProperty v.value
  match expected with
  | some e => return compareValue ctx v access e
  | none =>
    return assertCall ctx (pick v.negated "notStrictEqual" "strictEqual")
      [access, .lit "undefined"]

/-- A property of the value itself. -/
def ownProperty (ctx : Context) (v : View) : Option Expr := do
  let word ← v.called? ["ownProperty", "haveOwnProperty"] 1 1
    <|> (v.called? ["property"] 1 1).filter fun _ => v.own
  let name ← word.args.head?
  return predicate ctx (.callPath "Object.hasOwn" [v.value, name.embed]) v.negated

/-- A property of the value; further words speak about what it holds. -/
def property (ctx : Context) (v : View) (onward : Expr → Option Expr) : Option Expr := do
  let word ← v.words.head?
  guard (word.name == "property" && word.isCall && !v.own && !v.nested)
  let name ← literalArgument? ctx word 0
  let access := v.value.property name
  match word.args, v.words with
  | [key], [_] => return predicate ctx (.binary key.embed "in" v.value) v.negated
  | [_, expected], [_] => return compareValue ctx v access expected.embed
  | [_], _ => onward access
  | _, _ => none

def length (ctx : Context) (v : View) (onward : Expr → Option Expr) : Option Expr := do
  let word ← v.words.head?
  guard (word.name == "length" || word.name == "lengthOf")
  let access := Expr.member v.value "length"
  match word.arguments?, v.words with
  | none, _ :: _ :: _ => onward access
  | some (n :: more), [_] =>
    if more.length ≤ 1 then
      return assertCall ctx (comparison false v.negated) [access, n.embed]
    else none
  | _, _ => none

/-- The operator of a comparison word, and its complement. -/
def comparisonOperators? (word : String) : Option (String × String) :=
  if ["above", "greaterThan", "gt"].contains word then some (">", "<=")
  else if ["below", "lessThan", "lt"].contains word then some ("<", ">=")
  else if ["least", "gte", "aboveOrEqual"].contains word then some (">=", "<")
  else if ["most", "lte", "belowOrEqual"].contains word then some ("<=", ">")
  else none

/-- The value lies between two bounds, or outside of them. -/
def within (v : View) (low high : Expr) : Expr :=
  if v.negated then .binary (.binary v.value "<" low) "||" (.binary v.value ">" high)
  else .binary (.binary v.value ">=" low) "&&" (.binary v.value "<=" high)

def range (ctx : Context) (v : View) : Option Expr :=
  match (v.called? ["within"] 2 2).map Step.args with
  | some [low, high] => some (assertCall ctx "ok" [within v low.embed high.embed])
  | _ => do
    let word ← v.single?
    match word.args with
    | [bound] =>
      let (op, complement) ← comparisonOperators? word.name
      return assertCall ctx "ok" [.binary v.value (pick v.negated op complement) bound.embed]
    | _ => none

/-- How a text begins or ends. -/
def affix (ctx : Context) (v : View) : Option Expr := do
  let word ← v.called? ["startWith", "startsWith", "endWith", "endsWith"] 1 1
  let method := if Text.startsWith word.name.toList "start" then "startsWith" else "endsWith"
  return predicate ctx (v.value.method method (word.args.map Site.embed)) v.negated

/-- Containment in texts and arrays; subsets of objects have no such form. -/
def contained (ctx : Context) (v : View) : Option Expr := do
  let word ← v.called? ["include", "includes", "contain", "contains"] 1 1
  guard (!v.deep && !word.args.any fun a => a.kind == .object || a.kind == .array)
  return predicate ctx (v.value.method "includes" (word.args.map Site.embed)) v.negated

def matching (ctx : Context) (v : View) : Option Expr := do
  let word ← v.called? ["match", "matches"] 1 1
  return assertCall ctx (pick v.negated "match" "doesNotMatch")
    (v.value :: word.args.map Site.embed)

def instance' (ctx : Context) (v : View) : Option Expr := do
  let word ← v.called? ["instanceof", "instanceOf"] 1 1
  let cls ← word.args.head?
  return predicate ctx (.binary v.value "instanceof" cls.embed) v.negated

/-- The name of the type that a word asks for, in lower case. -/
def typeName? (ctx : Context) (v : View) : Option String :=
  let lower (s : String) := String.ofList (s.toList.map Char.toLower)
  match v.called? ["a", "an", "type"] 1 1 with
  | some word => (literalArgument? ctx word 0).map lower
  | none =>
    (v.bare? ["Array", "Object", "String", "Number", "Boolean", "Function", "Promise"]).map
      fun word => lower word.name

def typeCheck (ctx : Context) (v : View) : Option Expr := do
  let name ← typeName? ctx v
  let check : Expr :=
    if name == "array" then .callPath "Array.isArray" [v.value]
    else if name == "promise" then .binary v.value "instanceof" (.ident "Promise")
    else if name == "null" then .binary v.value "===" (.lit "null")
    else .binary (.unary "typeof " v.value) "===" (.str name)
  return predicate ctx check v.negated

/-- Words that look into a value; `onward` says what the words behind the first one make of the value
that it leads to. -/
def membershipWith (ctx : Context) (v : View) (onward : Expr → Option Expr) : Option Expr :=
  nestedProperty ctx v <|> ownProperty ctx v <|> property ctx v onward <|> length ctx v onward
    <|> range ctx v <|> affix ctx v <|> contained ctx v <|> matching ctx v <|> instance' ctx v
    <|> typeCheck ctx v

/-- What words say about a value that can be checked at once, with the flags of a view. -/
def buildSyncFrom (ctx : Context) (flags : View) : List Step → Expr → Option Expr
  | [], _ => none
  | word :: rest, value =>
    let v := { flags with words := word :: rest, value }
    deepEquality ctx v <|> strictEquality ctx v <|> existence ctx v <|> boolean ctx v
      <|> membershipWith ctx v (buildSyncFrom ctx flags rest)

/-- The assertion of a view by all families that check a value at once. -/
def buildSync (ctx : Context) (v : View) : Option Expr := buildSyncFrom ctx v v.words v.value

/-- Words that look into a value. -/
def membership (ctx : Context) (v : View) : Option Expr :=
  membershipWith ctx v (buildSyncFrom ctx v v.words.tail)

end Assertion

end TestMigration
