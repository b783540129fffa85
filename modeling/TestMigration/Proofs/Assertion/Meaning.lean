import Mathlib.Order.Lattice
import TestMigration.Assertion.View
import TestMigration.Proofs.Expr.Meaning

/-!
# What assertions mean

Expressions of an assertion get their values from an `Interpretation`, which is free in all but a few things:
predicates give truth values, the order of values is total, and the functions of the assert module come in pairs
of which one passes when the other fails. An assertion passes when its call of the module does; one behind `then`
waits for a promise to be fulfilled.

The evaluator is not unfolded elsewhere: there is a rule for each form of expression that assertions are made of.
-/

namespace TestMigration

/-- Operators, functions and methods that give truth values; methods are written with a point. -/
def predicateNames : List String :=
  ["in", "instanceof", "===", "!=", "Object.hasOwn", "Array.isArray", "Number.isNaN", ".includes",
    ".startsWith", ".endsWith"]

/-- The functions of the assert module that fail where their twins pass. -/
def assertTwins : List (String × String) :=
  [("strictEqual", "notStrictEqual"), ("deepStrictEqual", "notDeepStrictEqual"), ("equal", "notEqual"),
    ("match", "doesNotMatch"), ("throws", "doesNotThrow"), ("rejects", "doesNotReject")]

/-- What expressions and assertions come to, over values of the type `α` that are ranked in `β`. -/
structure Interpretation (α β : Type) [LinearOrder β] where
  /-- What a piece of the file denotes. -/
  piece : Span → Value α
  /-- What a name denotes. -/
  name : String → Value α
  /-- What a literal text denotes. -/
  text : String → Value α
  /-- What a literal token denotes that is no truth value. -/
  token : String → Value α
  /-- What predicates say about values. -/
  test : String → List (Value α) → Bool
  /-- What all other operators, accesses, functions and methods give. -/
  operation : String → List (Value α) → Value α
  /-- Where a value stands in the order behind `<`. -/
  rank : Value α → β
  /-- What literals, functions and other code denote, given the values of variables. -/
  code : List (String × Value α) → Expr → Value α
  /-- A function of the assert module accepts the arguments. -/
  passes : String → List (Value α) → Prop
  twins : ∀ method twin, (method, twin) ∈ assertTwins → ∀ args, passes twin args ↔ ¬ passes method args
  ok_boolean : ∀ b, passes "ok" [.boolean b] ↔ b = true
  strictEqual_boolean : ∀ a b, passes "strictEqual" [.boolean a, .boolean b] ↔ a = b

namespace Interpretation

variable {α β : Type} [LinearOrder β] (I : Interpretation α β)

/-- The value of a call or an operation. -/
def apply (name : String) (vs : List (Value α)) : Value α :=
  if predicateNames.contains name then .boolean (I.test name vs) else I.operation name vs

/-- The value of a literal token. -/
def literal (token : String) : Value α :=
  if token = "true" then .boolean true else if token = "false" then .boolean false else I.token token

/-- The value of `left op right`. -/
def operate (left : Value α) (op : String) (right : Value α) : Value α :=
  match op, left, right with
  | "&&", .boolean a, .boolean b => .boolean (a && b)
  | "||", .boolean a, .boolean b => .boolean (a || b)
  | "<", a, b => .boolean (I.rank a < I.rank b)
  | "<=", a, b => .boolean (I.rank a ≤ I.rank b)
  | ">", a, b => .boolean (I.rank b < I.rank a)
  | ">=", a, b => .boolean (I.rank b ≤ I.rank a)
  | op, a, b => I.apply op [a, b]

end Interpretation

section
variable {α β : Type} [LinearOrder β] (I : Interpretation α β) (vars : List (String × Value α))

mutual

/-- The value of an expression, given the values of variables. -/
def Expr.value : Expr → Value α
  | .source span _ => I.piece span
  | .ident x => (vars.lookup x).getD (I.name x)
  | .str content => I.text content
  | .lit token => I.literal token
  | .member e key => I.operation "." [e.value, I.text key]
  | .optionalMember e key => I.operation "?." [e.value, I.text key]
  | .index e key => I.operation "." [e.value, key.value]
  | .optionalIndex e key => I.operation "?." [e.value, key.value]
  | .unary op e => I.operation op [e.value]
  | .binary left op right => I.operate left.value op right.value
  | .call (.ident f) args => I.apply f (Expr.values args)
  | .call (.member e m) args => I.apply ("." ++ m) (e.value :: Expr.values args)
  | e => I.code vars e

def Expr.values : List Expr → List (Value α)
  | [] => []
  | e :: rest => e.value :: Expr.values rest

end

variable (module : String)

/-- The expression calls a function of the assert module that accepts its arguments. -/
def Expr.Asserts : Expr → Prop
  | .call (.ident f) args => ∃ method, f = module ++ "." ++ method ∧ I.passes method (Expr.values I vars args)
  | _ => False

end

/-- The assertion passes: at once, or when the promise that it waits for was fulfilled. -/
def Expr.Passes {α β : Type} [LinearOrder β] (I : Interpretation α β) (module : String) : Expr → Prop
  | .call (.member p "then") [.arrow [x] check] =>
    ∃ v, p.value I [] = .fulfilled v ∧ check.Asserts I [(x, v)] module
  | e => e.Asserts I [] module

/-! ### Rules -/

section
variable {α β : Type} [LinearOrder β] {I : Interpretation α β} {vars : List (String × Value α)}

theorem asserts_assertCall {ctx : Context} {method : String} {args : List Expr} :
    (assertCall ctx method args).Asserts I vars ctx.names.assert ↔
      I.passes method (Expr.values I vars args) := by
  unfold assertCall Expr.callPath Expr.Asserts
  constructor
  · rintro ⟨method', heq, hpasses⟩
    obtain rfl : method = method' := by simpa using heq
    exact hpasses
  · exact fun hpasses => ⟨method, rfl, hpasses⟩

theorem passes_assertCall {ctx : Context} {method : String} {args : List Expr} :
    (assertCall ctx method args).Passes I ctx.names.assert ↔ I.passes method (Expr.values I [] args) :=
  asserts_assertCall

theorem passes_then {ctx : Context} {p check : Expr} {x : String} :
    (p.method "then" [.arrow [x] check]).Passes I ctx.names.assert ↔
      ∃ v, p.value I [] = .fulfilled v ∧ check.Asserts I [(x, v)] ctx.names.assert :=
  Iff.rfl

theorem value_false : (Expr.lit "false").value I vars = .boolean false := by
  rw [Expr.value]
  rfl

theorem value_binary {left right : Expr} {op : String} : (Expr.binary left op right).value I vars =
    I.operate (left.value I vars) op (right.value I vars) := by
  rw [Expr.value]

theorem value_lt {left right : Expr} : (Expr.binary left "<" right).value I vars =
    .boolean (I.rank (left.value I vars) < I.rank (right.value I vars)) := value_binary

theorem value_le {left right : Expr} : (Expr.binary left "<=" right).value I vars =
    .boolean (I.rank (left.value I vars) ≤ I.rank (right.value I vars)) := value_binary

theorem value_gt {left right : Expr} : (Expr.binary left ">" right).value I vars =
    .boolean (I.rank (right.value I vars) < I.rank (left.value I vars)) := value_binary

theorem value_ge {left right : Expr} : (Expr.binary left ">=" right).value I vars =
    .boolean (I.rank (right.value I vars) ≤ I.rank (left.value I vars)) := value_binary

theorem value_and {left right : Expr} {a b : Bool} (hleft : left.value I vars = .boolean a)
    (hright : right.value I vars = .boolean b) : (Expr.binary left "&&" right).value I vars = .boolean (a && b) := by
  rw [value_binary, hleft, hright]
  rfl

theorem value_or {left right : Expr} {a b : Bool} (hleft : left.value I vars = .boolean a)
    (hright : right.value I vars = .boolean b) : (Expr.binary left "||" right).value I vars = .boolean (a || b) := by
  rw [value_binary, hleft, hright]
  rfl

def Expr.IsBoolean (I : Interpretation α β) (e : Expr) : Prop := ∃ b, e.value I [] = .boolean b

theorem isBoolean_binary {left right : Expr} {op : String} (h : op ∈ ["in", "instanceof", "===", "!="]) :
    (Expr.binary left op right).IsBoolean I := by
  refine ⟨I.test op [left.value I [], right.value I []], ?_⟩
  rw [value_binary]
  simp only [List.mem_cons, List.not_mem_nil, or_false] at h
  rcases h with rfl | rfl | rfl | rfl <;> rfl

theorem isBoolean_callPath {f : String} {args : List Expr} (h : predicateNames.contains f = true) :
    (Expr.callPath f args).IsBoolean I := by
  refine ⟨I.test f (Expr.values I [] args), ?_⟩
  rw [Expr.callPath, Expr.value, Interpretation.apply, if_pos h]

theorem isBoolean_method {e : Expr} {m : String} {args : List Expr}
    (h : predicateNames.contains ("." ++ m) = true) : (e.method m args).IsBoolean I := by
  refine ⟨I.test ("." ++ m) (e.value I [] :: Expr.values I [] args), ?_⟩
  rw [Expr.method, Expr.value, Interpretation.apply, if_pos h]

end

end TestMigration
