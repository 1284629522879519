import LoxSyntax.Expr.Basic

/-! # The description of an expression

`Expr.description` writes an expression as the terms that make it up, each with the names of its
parts. Nothing is left out, so the expression can be read back. -/

namespace LoxSyntax.Expr

/-- A text from which the expression can be read back. -/
def description : Expr → String
  | literal value line =>
    "Literal(value=" ++ value.description ++ ", source_line=" ++ toString line ++ ")"
  | grouping inner line =>
    "Grouping(expression=" ++ inner.description ++ ", source_line=" ++ toString line ++ ")"
  | unary operator right =>
    "Unary(operator=" ++ operator.description ++ ", right=" ++ right.description ++ ")"
  | binary left operator right =>
    "Binary(left=" ++ left.description ++ ", operator=" ++ operator.description ++
      ", right=" ++ right.description ++ ")"
  | reference name => "Variable(name=" ++ name.description ++ ")"
  | unknown => "Mystery()"

end LoxSyntax.Expr
