import TestMigration.Assertion.Family
import TestMigration.Assertion.Membership
import TestMigration.Assertion.Outcome
import TestMigration.Assertion.Simple
import TestMigration.Assertion.View
import TestMigration.Chain
import TestMigration.CommandLine.Arguments
import TestMigration.CommandLine.Batch
import TestMigration.CommandLine.Run
import TestMigration.CommandLine.Usage
import TestMigration.Config.Basic
import TestMigration.Config.Codec
import TestMigration.Config.Load
import TestMigration.Config.Selection
import TestMigration.Diagnostic
import TestMigration.Edit.Apply
import TestMigration.Edit.Basic
import TestMigration.Edit.Forest
import TestMigration.Expr.Basic
import TestMigration.Expr.Embed
import TestMigration.Expr.Printer
import TestMigration.Files
import TestMigration.Glob
import TestMigration.Grammar.Class
import TestMigration.Grammar.Expression
import TestMigration.Grammar.Lexeme
import TestMigration.Grammar.Markup
import TestMigration.Grammar.Pattern
import TestMigration.Grammar.Rules
import TestMigration.Grammar.Scan
import TestMigration.Grammar.Source
import TestMigration.Grammar.Statement
import TestMigration.Grammar.Type
import TestMigration.Import.Plan
import TestMigration.Import.Reference
import TestMigration.Import.Scan
import TestMigration.Import.Target
import TestMigration.Json.Decode
import TestMigration.Json.Parser
import TestMigration.Json.Printer
import TestMigration.Json.Value
import TestMigration.Main
import TestMigration.Migration
import TestMigration.Mock.Bindings
import TestMigration.Mock.Rules
import TestMigration.Path
import TestMigration.Registration.Callee
import TestMigration.Registration.Pass
import TestMigration.Registration.Rules
import TestMigration.Report.Basic
import TestMigration.Report.Codec
import TestMigration.Report.Console
import TestMigration.Rule.Catalog
import TestMigration.Rule.Synthesis
import TestMigration.Run.Discovery
import TestMigration.Run.Leftovers
import TestMigration.Run.Outcome
import TestMigration.Run.Sandboxes
import TestMigration.Scope
import TestMigration.Stub.Entry
import TestMigration.Stub.Plan
import TestMigration.Style.Basic
import TestMigration.Style.Choice
import TestMigration.Style.Detect
import TestMigration.Text.Basic
import TestMigration.Text.Blank
import TestMigration.Text.Lines
import TestMigration.Text.Ordered
import TestMigration.Tree.Node
import TestMigration.Tree.Query
import TestMigration.Tree.Site
import TestMigration.Proofs.Tree.Placed
import TestMigration.Proofs.Edit.Applied
import TestMigration.Proofs.Edit.Deletion
import TestMigration.Proofs.Rule.Targets
import TestMigration.Proofs.Run.Planned
import TestMigration.Proofs.Import.Settled
import TestMigration.Proofs.Registration.Settled
import TestMigration.Proofs.Run.Settled
import TestMigration.Proofs.Run.Unchanged
import TestMigration.Proofs.Edit.Copied
import TestMigration.Proofs.Run.Dangling
import TestMigration.Proofs.Edit.Compatible
import TestMigration.Proofs.Edit.Containment
import TestMigration.Proofs.Edit.Checked
import TestMigration.Proofs.Expr.Meaning
import TestMigration.Proofs.Stub.Meaning
import TestMigration.Proofs.Stub.Gathering
import TestMigration.Proofs.Mock.Configuring
import TestMigration.Proofs.Stub.Accounting
import TestMigration.Proofs.Mock.Bindings
import TestMigration.Proofs.Run.Skipped
import TestMigration.Proofs.Assertion.Meaning
import TestMigration.Proofs.Assertion.Negation
import TestMigration.Proofs.Expr.RoundTrip
import TestMigration.Proofs.Rule.Hygiene
import TestMigration.Proofs.Run.Requested
import TestMigration.Proofs.Run.Introduced
import TestMigration.Proofs.Run.Skipping
import TestMigration.Proofs.Files.Places
import TestMigration.Proofs.Config.Extends
import TestMigration.Proofs.Config.Layers
import TestMigration.Proofs.Json.ReadBack
import TestMigration.Proofs.Json.Record
import TestMigration.Proofs.Json.RoundTrip
import TestMigration.Proofs.Text.Blanks
import TestMigration.Proofs.Edit.Neighbours
import TestMigration.Proofs.Stub.Body
import TestMigration.Proofs.Files.Writing
import TestMigration.Proofs.CommandLine.Interleaved
import TestMigration.Proofs.Tree.Listed
import TestMigration.Proofs.Run.Deleted
import TestMigration.Proofs.Edit.Conflict
import TestMigration.Proofs.Assertion.Alike
import TestMigration.Proofs.Assertion.Forms
import TestMigration.Proofs.Import.Insertion
import TestMigration.Proofs.Stub.Key
import TestMigration.Proofs.Assertion.Shifting
import TestMigration.Proofs.Tree.Chained
import TestMigration.Proofs.Assertion.Evaluated
import TestMigration.Proofs.Rule.Evaluated
import TestMigration.Proofs.Run.Origins
import TestMigration.Proofs.Run.Inspected
import TestMigration.Proofs.Run.Callees
import TestMigration.Proofs.Tree.Climbing
import TestMigration.Proofs.Run.Callbacks
import TestMigration.Proofs.Assertion.Nested
import TestMigration.Proofs.Expr.Value
import TestMigration.Proofs.Run.Reported
import TestMigration.Proofs.Run.Accepted
