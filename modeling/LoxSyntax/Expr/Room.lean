import LoxSyntax.Expr.PrefixText
import LoxSyntax.Expr.Record

/-! # Room for writing an expression

The texts of an expression are written by calls within calls, for which there is only so much room. So
a chain of operators, on which no limit is put where it is read, may be too deep to be written.
`Expr.prefixTextWithin` and `Expr.recordWithin` are `Expr.prefixText` and `Expr.record` with a room
that may run out. -/

namespace LoxSyntax.Expr

/-- Writes with what is left of the room once the cost is paid. -/
def within {α : Type} (cost room : Nat) (write : Nat → Except TextFault α) : Except TextFault α :=
  if cost ≤ room then write (room - cost) else .error .tooDeep

/-- How many calls lead from a node of the prefix text to the node of its operand. -/
def textCost : Nat := 5

/-- How many calls lead from a node of the record to the node of its operand. -/
def recordCost : Nat := 1

/-- The room of a run for the calls that write. -/
def defaultRoom : Nat := 975

def prefixTextWithin : Expr → Nat → Except TextFault String
  | literal value _, _ => .ok value.exprText
  | grouping inner _, room =>
    (within textCost room inner.prefixTextWithin).map (parenthesizeOne "group")
  | unary operator right, room =>
    (within textCost room right.prefixTextWithin).map (parenthesizeOne operator.lexeme)
  | binary left operator right, room => do
    let leftText ← within textCost room left.prefixTextWithin
    let rightText ← within textCost room right.prefixTextWithin
    return parenthesizeTwo operator.lexeme leftText rightText
  | reference name, _ => .ok name.lexeme
  | unknown, _ => .error (.unknownKind unknown.kindName)

def recordWithin : Expr → Nat → Except TextFault Json.Value
  | grouping inner line, room => do
    let innerRecord ← within recordCost room inner.recordWithin
    return recordWith (grouping inner line) (.entry "expression" innerRecord .empty)
  | unary operator right, room => do
    let rightRecord ← within recordCost room right.recordWithin
    return recordWith (unary operator right)
      (.entry "operator" (.text operator.lexeme) (.entry "right" rightRecord .empty))
  | binary left operator right, room => do
    let leftRecord ← within recordCost room left.recordWithin
    let rightRecord ← within recordCost room right.recordWithin
    return recordWith (binary left operator right)
      (.entry "operator" (.text operator.lexeme)
        (.entry "left" leftRecord (.entry "right" rightRecord .empty)))
  | leaf, _ => .ok leaf.record

end LoxSyntax.Expr
