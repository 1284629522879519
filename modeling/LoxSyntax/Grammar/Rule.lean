import LoxSyntax.Token.Kind

/-! # The rules of the expression grammar

```
expression → equality
equality   → comparison ( ( "!=" | "==" ) comparison )*
comparison → term ( ( ">" | ">=" | "<" | "<=" ) term )*
term       → factor ( ( "-" | "+" ) factor )*
factor     → unary ( ( "/" | "*" ) unary )*
unary      → ( "!" | "-" ) unary | primary
primary    → NUMBER | STRING | "true" | "false" | "nil" | IDENTIFIER | "(" expression ")"
```

Each of the four binary levels folds its operators to the left. -/

namespace LoxSyntax

/-- The nonterminals of the grammar, loosest first. -/
inductive Rule
  | expression | equality | comparison | term | factor | unary | primary
  deriving DecidableEq, Inhabited

namespace Rule

/-- The binary operators that a rule chains its operands with. -/
def operators : Rule → List Kind
  | equality => [.bangEqual, .equalEqual]
  | comparison => [.greater, .greaterEqual, .less, .lessEqual]
  | term => [.minus, .plus]
  | factor => [.slash, .star]
  | expression | unary | primary => []

/-- The operators that stand before their operand. -/
def unaryOperators : List Kind := [.bang, .minus]

end Rule

end LoxSyntax
