import LoxSyntax.Token.Basic

/-! # Expressions

`Expr` is the syntax tree of an expression. A parenthesised expression is a node of its own, so
that `(1 + 2)` stays apart from `1 + 2`. Operators and names are kept as whole tokens; literals
and groupings keep only the line of the token they begin with, and `Expr.equals` passes over that
line. -/

namespace LoxSyntax

inductive Expr
  | literal (value : Literal) (line : Int)
  | grouping (inner : Expr) (line : Int)
  | unary (operator : Token) (right : Expr)
  | binary (left : Expr) (operator : Token) (right : Expr)
  | reference (name : Token)
  /-- A node of a kind that has no form of its own in any text. -/
  | unknown
  deriving DecidableEq, Inhabited

namespace Expr

def kindName : Expr → String
  | literal .. => "literal"
  | grouping .. => "grouping"
  | unary .. => "unary"
  | binary .. => "binary"
  | reference _ => "variable"
  | unknown => "mystery"

/-- The line of the token that the node was made from. -/
def line : Expr → Int
  | literal _ line | grouping _ line => line
  | unary operator _ | binary _ operator _ => operator.line
  | reference name => name.line
  | unknown => 0

/-- Equality by value: tokens by `Token.equals`, lines of literals and groupings not at all. -/
def equals : Expr → Expr → Bool
  | literal a _, literal b _ => a.equals b
  | grouping a _, grouping b _ => a.equals b
  | unary o₁ a₁, unary o₂ a₂ => o₁.equals o₂ && a₁.equals a₂
  | binary a₁ o₁ b₁, binary a₂ o₂ b₂ => a₁.equals a₂ && o₁.equals o₂ && b₁.equals b₂
  | reference a, reference b => a.equals b
  | unknown, unknown => true
  | _, _ => false

/-- Equality of what may be no expression; two that are none are equal. -/
def equals? : Option Expr → Option Expr → Bool
  | some a, some b => a.equals b
  | none, none => true
  | _, _ => false

end Expr

end LoxSyntax
