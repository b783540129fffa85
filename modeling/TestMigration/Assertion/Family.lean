import TestMigration.Assertion.Membership
import TestMigration.Assertion.Outcome
import TestMigration.Rule.Synthesis

/-!
# Families of assertions

Each family turns the views it knows into a call of the assert module. A chain belongs to the first
family that builds its view or, for a negated chain, its positive view: negated chains without a
counterpart are reported by the family that knows their positive form.
-/

namespace TestMigration

namespace Assertion

/-- The families of assertions. -/
inductive Family where
  | promise
  | throws
  | deepEquality
  | strictEquality
  | existence
  | boolean
  | membership
deriving DecidableEq, Repr, Inhabited

namespace Family

def all : List Family :=
  [promise, throws, deepEquality, strictEquality, existence, boolean, membership]

def name : Family → String
  | promise => "promise"
  | throws => "throws"
  | deepEquality => "deep-equality"
  | strictEquality => "strict-equality"
  | existence => "existence"
  | boolean => "boolean"
  | membership => "membership"

/-- The assertion that a family makes of a view. -/
def build (f : Family) (ctx : Context) (v : View) : Option Expr :=
  match f with
  | promise => Assertion.promise ctx v
  | throws => Assertion.throws ctx v
  | deepEquality => Assertion.deepEquality ctx v
  | strictEquality => Assertion.strictEquality ctx v
  | existence => Assertion.existence ctx v
  | boolean => Assertion.boolean ctx v
  | membership => Assertion.membership ctx v

/-- The view of a chain, if the family can look at it: only promises are waited for. -/
def view? (f : Family) (ctx : Context) (c : Chain) : Option View :=
  (View.ofChain? ctx c).filter fun v => !v.eventually || f == promise

/-- The steps that say something, as a message quotes them. -/
def excerpt (c : Chain) : String :=
  let told := c.steps.filter fun s => s.name != "should" && !fillers.contains s.name
  String.intercalate "." (told.map fun s => if s.isCall then s.name ++ "(...)" else s.name)

/-- What the family asks for, if the chain belongs to it. -/
def synthesis? (f : Family) (ctx : Context) (c : Chain) : Option Synthesis := do
  let v ← f.view? ctx c
  match f.build ctx v with
  | some e => return c.replaceBy e
  | none =>
    guard (v.negated && (f.build ctx v.positive).isSome)
    return .skip ("negated form \x60" ++ excerpt c ++ "\x60 has no node:assert counterpart")

/-- The chain is a negated assertion. -/
def isNegated (f : Family) (ctx : Context) (c : Chain) : Bool :=
  ((f.view? ctx c).map (·.negated)).getD false

end Family

/-- Remove the setup of an assertion library that stands as a statement of its own. -/
def setup? (ctx : Context) (c : Chain) : Option Synthesis := do
  match c.steps with
  | [step] =>
    let onChai := c.subjectIs ctx.names.chai ctx.source && ["use", "should"].contains step.name
    let onShould := c.subjectIs ctx.names.should ctx.source && step.name == "extend"
    guard (step.isCall && (onChai || onShould))
    return .removeSetup (← c.statement?)
  | _ => none

end Assertion

end TestMigration
