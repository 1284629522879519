import LoxSyntax.Expr.Basic

/-! # The prefix text of an expression

`Expr.prefixText` writes every node that is not a leaf as `(name operand …)`, so that the
grouping of the operands shows: `1 + 2 * 3` is `(+ 1.0 (* 2.0 3.0))`. It fails exactly for
expressions with a node of an unknown kind. -/

namespace LoxSyntax

inductive Expr.TextFault
  | unknownKind (name : String)
  /-- There is no room left for the calls that write the operands. -/
  | tooDeep
  deriving DecidableEq

namespace Expr

def TextFault.message : TextFault → String
  | .unknownKind name => "No printer for node kind: " ++ name
  | .tooDeep => "maximum recursion depth exceeded"

def parenthesizeOne (name operand : String) : String :=
  "(" ++ name ++ " " ++ operand ++ ")"

def parenthesizeTwo (name left right : String) : String :=
  "(" ++ name ++ " " ++ left ++ " " ++ right ++ ")"

def prefixText : Expr → Except TextFault String
  | literal value _ => .ok value.exprText
  | grouping inner _ => inner.prefixText.map (parenthesizeOne "group")
  | unary operator right => right.prefixText.map (parenthesizeOne operator.lexeme)
  | binary left operator right => do
    let leftText ← left.prefixText
    let rightText ← right.prefixText
    return parenthesizeTwo operator.lexeme leftText rightText
  | reference name => .ok name.lexeme
  | unknown => .error (.unknownKind unknown.kindName)

end Expr

end LoxSyntax
