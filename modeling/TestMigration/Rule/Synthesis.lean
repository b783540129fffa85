import TestMigration.Stub.Plan

/-!
# What a rule asks for

A rule that recognises a chain answers with a `Synthesis`. Only a replacement and the deletion of a
statement are edits at once; the other answers wait until the whole file has been looked at.
-/

namespace TestMigration

/-- What is to be done with a chain that a rule recognised. -/
inductive Synthesis where
  /-- Replace a part of the chain, mostly all of it. -/
  | replace (target : Site) (e : Expr)
  | removeStatement (statement : Site)
  /-- Remove the setup of an assertion library, once no assertion of it is left. -/
  | removeSetup (statement : Site)
  /-- Remove a declaration, once nothing else uses the name that it binds. -/
  | removeDeclaration (statement : Site) (binding : String)
  /-- Gather a configuration in the plan of its stub. -/
  | configure (config : StubConfig)
  /-- Keep the chain and say why. -/
  | skip (reason : String)
deriving Inhabited

namespace Chain

/-- The statement that the chain is all of. -/
def statement? (c : Chain) : Option Site := c.root.parentOf? .expressionStatement

def replaceBy (c : Chain) (e : Expr) : Synthesis := .replace c.root e

end Chain

end TestMigration
