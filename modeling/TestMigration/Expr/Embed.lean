import TestMigration.Expr.Basic
import TestMigration.Tree.Site

/-!
# Embedding nodes

A node of the file becomes an expression that copies its span, with the precedence that its kind has.
-/

namespace TestMigration

/-- How tightly an expression of the file binds when it is copied. -/
def Kind.precedence : Kind → Nat
  | .identifier | .thisKeyword | .superKeyword | .string | .template | .number | .trueLiteral
  | .falseLiteral | .nullLiteral | .undefined | .regex | .parenthesized | .array | .object | .member
  | .subscript | .call | .propertyName | .nonNull => Precedence.primary
  | .construction => Precedence.member
  | .unary | .await | .update => Precedence.unary
  | .binary op => binaryPrecedence op
  | .asType | .satisfiesType => 10
  | .ternary => 3
  | .sequence => 1
  | _ => Precedence.assignment

def Site.embed (s : Site) : Expr := .source s.span s.kind.precedence

end TestMigration
