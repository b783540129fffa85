import TestMigration.Rule.Synthesis

/-!
# Rules for registration chains

Chains that belong to the legacy runner: aliases with a modifier, and the threshold for slow tests,
which has no counterpart.
-/

namespace TestMigration

/-- The rules for chains of the test runner. -/
inductive RegistrationRule where
  | aliasModifier
  | slowThreshold
deriving DecidableEq, Repr, Inhabited

namespace RegistrationRule

def all : List RegistrationRule := [aliasModifier, slowThreshold]

def name : RegistrationRule → String
  | aliasModifier => "registration-alias"
  | slowThreshold => "slow-threshold"

/-- The name that an alias stands for. -/
def aliased? (base : String) : Option String :=
  match base with
  | "context" => some "describe"
  | "specify" => some "it"
  | _ => none

/-- What the rule asks for, if it recognises the chain. -/
def synthesis? (r : RegistrationRule) (ctx : Context) (c : Chain) : Option Synthesis :=
  match c.steps with
  | [step] =>
    match r with
    | aliasModifier => do
      guard (c.subject.kind == .identifier && step.isCall)
      let target ← aliased? (ctx.text c.subject)
      guard (["only", "skip"].contains step.name)
      let callee ← step.site.child? .callee
      return .replace callee (.ident (target ++ "." ++ step.name))
    | slowThreshold => do
      guard (c.subject.kind == .thisKeyword && step.name == "slow" && step.isCall)
      return .removeStatement (← c.statement?)
  | _ => none

end RegistrationRule

end TestMigration
