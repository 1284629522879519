import LoxSyntax.Number.Magnitude

/-! # Binary64 numbers

`Number` is a binary64 number: a signed magnitude, or not a number. All payloads of "not a
number" count as one value, and it differs from every number, itself included, under
`Number.equals`, which also identifies the two zeros. Equality in the logic (`=`) tells the
zeros apart. -/

namespace LoxSyntax

/-- A binary64 number, without the payloads of "not a number". -/
inductive Number
  | nan
  | signed (negative : Bool) (magnitude : Magnitude)
  deriving DecidableEq

namespace Number

instance : Inhabited Number := ⟨.signed false .zero⟩

/-- A number without a minus sign. -/
def positive (m : Magnitude) : Number := .signed false m

/-- The number one, which a true constant is equal to. -/
def one : Number := positive (.nearest 1 1)

/-- The number zero, which a false constant is equal to. -/
def zero : Number := positive .zero

/-- Numeric equality: zeros of both signs are equal, and "not a number" equals nothing. -/
def equals : Number → Number → Bool
  | .signed n₁ m₁, .signed n₂ m₂ => m₁ = m₂ && (n₁ = n₂ || m₁ = .zero)
  | _, _ => false

end Number

end LoxSyntax
