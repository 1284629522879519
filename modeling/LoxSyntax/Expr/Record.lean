import LoxSyntax.Expr.Basic
import LoxSyntax.Json.Basic

/-! # The record of an expression

`Expr.record` is the JSON object of an expression: its kind and line first, then its parts, with
operators and names given by their lexemes alone. -/

namespace LoxSyntax

def Literal.record : Literal → Json.Value
  | .nil => .null
  | .bool value => .bool value
  | .number value => .number value
  | .text value => .text value

namespace Expr

/-- The JSON object of a node, given the entries after its kind and line. -/
def recordWith (e : Expr) (parts : Json.Entries) : Json.Value :=
  .object (.entry "kind" (.text e.kindName) (.entry "line" (.integer e.line) parts))

def record : Expr → Json.Value
  | literal value line => recordWith (literal value line) (.entry "value" value.record .empty)
  | grouping inner line =>
    recordWith (grouping inner line) (.entry "expression" inner.record .empty)
  | unary operator right =>
    recordWith (unary operator right)
      (.entry "operator" (.text operator.lexeme) (.entry "right" right.record .empty))
  | binary left operator right =>
    recordWith (binary left operator right)
      (.entry "operator" (.text operator.lexeme)
        (.entry "left" left.record (.entry "right" right.record .empty)))
  | reference name =>
    recordWith (reference name) (.entry "name" (.text name.lexeme) .empty)
  | unknown => recordWith unknown .empty

end Expr

end LoxSyntax
