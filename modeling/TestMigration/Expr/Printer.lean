import TestMigration.Expr.Basic
import TestMigration.Style.Basic

/-!
# Printing synthesised code

`Expr.print` writes an expression with the parentheses its precedence asks for. String literals take
the file's quote; blocks are indented by the file's unit from the line that the expression starts on.
Embedded spans are written by the function `source`, which the caller supplies.
-/

namespace TestMigration

/-- The content of a string literal with every bare quote escaped. The flag says that the character
before was a backslash that escapes the next one. -/
def escapeQuote (quote : Char) : Bool → List Char → List Char
  | _, [] => []
  | escaped, c :: cs =>
    let rest := c :: escapeQuote quote (c == '\\' && !escaped) cs
    if c == quote && !escaped then '\\' :: rest else rest

/-- A string literal in the given quote around raw content. -/
def quoteLiteral (quote : Char) (content : String) : String :=
  String.ofList (quote :: (escapeQuote quote false content.toList ++ [quote]))

def printParams (params : List String) : String := "(" ++ String.intercalate ", " params ++ ")"

/-- `text`, in parentheses if asked. -/
def parenthesizeIf (wrap : Bool) (text : String) : String :=
  if wrap then "(" ++ text ++ ")" else text

/-- The arrow body is an object literal, which would read as a block. -/
def Expr.isObject : Expr → Bool
  | .object _ => true
  | _ => false

section
variable (style : Style) (source : Span → String)

mutual

/-- Text of an expression where at least precedence `least` is needed; `indent` is the margin of the
line it starts on. -/
def Expr.printAt (indent : String) (least : Nat) (e : Expr) : String :=
  parenthesizeIf (e.precedence < least) <|
    match e with
    | .source span _ => source span
    | .ident name => name
    | .lit token => token
    | .str content => quoteLiteral style.quote content
    | .member object property => object.printAt indent Precedence.member ++ "." ++ property
    | .optionalMember object property =>
      object.printAt indent Precedence.member ++ "?." ++ property
    | .index object index =>
      object.printAt indent Precedence.member ++ "[" ++ index.printAt indent 0 ++ "]"
    | .optionalIndex object index =>
      object.printAt indent Precedence.member ++ "?.[" ++ index.printAt indent 0 ++ "]"
    | .call callee args =>
      callee.printAt indent Precedence.member ++ "(" ++ Expr.printList indent args ++ ")"
    | .new callee args =>
      "new " ++ callee.printAt indent Precedence.member ++ "(" ++ Expr.printList indent args ++ ")"
    | .unary op operand => op ++ operand.printAt indent Precedence.unary
    | .binary left op right =>
      left.printAt indent (binaryPrecedence op) ++ " " ++ op ++ " "
        ++ right.printAt indent (binaryPrecedence op + 1)
    | .arrow params body =>
      printParams params ++ " => "
        ++ (if body.isObject then "(" ++ body.printAt indent 0 ++ ")"
            else body.printAt indent Precedence.assignment)
    | .arrowBlock params body =>
      printParams params ++ " => " ++ "\x7b\n" ++ Stmt.printLines (indent ++ style.indentUnit) body
        ++ indent ++ "\x7d"
    | .array items => "[" ++ Expr.printList indent items ++ "]"
    | .object fields =>
      if fields.isEmpty then "\x7b\x7d"
      else "\x7b " ++ Property.printList indent fields ++ " \x7d"

def Expr.printList (indent : String) : List Expr → String
  | [] => ""
  | [e] => e.printAt indent Precedence.assignment
  | e :: rest => e.printAt indent Precedence.assignment ++ ", " ++ Expr.printList indent rest

def Property.printList (indent : String) : List Property → String
  | [] => ""
  | [p] => p.print indent
  | p :: rest => p.print indent ++ ", " ++ Property.printList indent rest

def Property.print (indent : String) : Property → String
  | .mk key value => key ++ ": " ++ value.printAt indent Precedence.assignment

/-- Statements, each on a line of its own behind the margin. -/
def Stmt.printLines (indent : String) : List Stmt → String
  | [] => ""
  | s :: rest => indent ++ s.print indent ++ "\n" ++ Stmt.printLines indent rest

def Stmt.print (indent : String) : Stmt → String
  | .ifThen condition body =>
    "if (" ++ condition.printAt indent 0 ++ ") " ++ "\x7b\n"
      ++ Stmt.printLines (indent ++ style.indentUnit) body ++ indent ++ "\x7d"
  | .returnNothing => "return" ++ style.terminator
  | .return value => "return " ++ value.printAt indent 0 ++ style.terminator
  | .throw value => "throw " ++ value.printAt indent 0 ++ style.terminator
  | .expr value => value.printAt indent 0 ++ style.terminator

end

/-- Text of an expression that starts on a line with the margin `indent`. -/
def Expr.print (indent : String) (e : Expr) : String := e.printAt style source indent 0

end

end TestMigration
