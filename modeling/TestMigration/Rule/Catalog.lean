import TestMigration.Assertion.Family
import TestMigration.Migration
import TestMigration.Mock.Rules
import TestMigration.Registration.Rules

/-!
# Catalogs

Each migration has an ordered catalog of rules. A chain belongs to the first rule that recognises it,
so `Rule.find?` is all that the engine asks.
-/

namespace TestMigration

/-- A rule of some migration. -/
inductive Rule where
  | assertionSetup
  | assertion (family : Assertion.Family)
  | mock (rule : MockRule)
  | registration (rule : RegistrationRule)
deriving DecidableEq, Repr, Inhabited

namespace Rule

def name : Rule → String
  | assertionSetup => "assertion-setup"
  | assertion family => family.name
  | mock rule => rule.name
  | registration rule => rule.name

/-- What the code that a rule makes needs. -/
def requires : Rule → List ModuleKind
  | assertion _ => [.assert]
  | mock rule => rule.requires
  | assertionSetup | registration _ => []

/-- What a rule asks for, if it recognises the chain. A chain without steps belongs to no rule. -/
def synthesis? (r : Rule) (ctx : Context) (c : Chain) : Option Synthesis :=
  if c.steps.isEmpty then none
  else
    match r with
    | assertionSetup => Assertion.setup? ctx c
    | assertion family => family.synthesis? ctx c
    | mock rule => rule.synthesis? ctx c
    | registration rule => rule.synthesis? ctx c

/-- The rule sees the chain as a negated form. -/
def isNegated (r : Rule) (ctx : Context) (c : Chain) : Bool :=
  match r with
  | assertion family => family.isNegated ctx c
  | _ => false

end Rule

/-- The rules of a migration, in the order in which they are asked. -/
def Migration.catalog : Migration → List Rule
  | .assertions => .assertionSetup :: Assertion.Family.all.map .assertion
  | .mocks => MockRule.all.map .mock
  | .registration => RegistrationRule.all.map .registration

/-- The first rule of a migration that recognises a chain, with what it asks for. -/
def Migration.findRule? (m : Migration) (ctx : Context) (c : Chain) : Option (Rule × Synthesis) :=
  m.catalog.findSome? fun r => (r.synthesis? ctx c).map fun s => (r, s)

end TestMigration
