import LoxSyntax.Expr.Basic
import LoxSyntax.Reporter.Basic

/-! # The result of a parse -/

namespace LoxSyntax

/-- An expression, or none, and what was reported while it was read. -/
structure ParseResult where
  expr : Option Expr
  diagnostics : List Diagnostic

/-- A parse succeeds with an expression and without diagnostics. -/
def ParseResult.succeeded (r : ParseResult) : Bool :=
  r.expr.isSome && r.diagnostics.isEmpty

end LoxSyntax
