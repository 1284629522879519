import LoxSyntax.Number.Magnitude

/-! # Decimals

A `Decimal` is a whole number times a power of ten. `Decimal.nearest` rounds one correctly to a
magnitude, and `Magnitude.shortest` goes back: it finds the fewest significant digits, 17 at most,
from which `Decimal.nearest` returns to the same magnitude, and among those the decimal closest
to it. Seventeen digits always suffice, so the exact decimal that closes the search is never
met. -/

namespace LoxSyntax

/-- The number `digits · 10^exponent`. -/
structure Decimal where
  digits : Nat
  exponent : Int
  deriving DecidableEq, Repr

namespace Decimal

/-- The magnitude nearest to a decimal, a tie going to the even place. -/
def nearest (d : Decimal) : Magnitude :=
  if 0 ≤ d.exponent then .nearest (d.digits * Nat.pow 10 d.exponent.toNat) 1
  else .nearest d.digits (Nat.pow 10 (-d.exponent).toNat)

def width (n : Nat) : Nat := (Nat.toDigits 10 n).length

/-- The exponent `k` with `10^(k-1) ≤ num / den < 10^k`, for positive `num` and `den`. -/
def leadingExponent (num den : Nat) : Int :=
  let k : Int := width num - width den
  let reached :=
    if 0 ≤ k then den * Nat.pow 10 k.toNat ≤ num else den ≤ num * Nat.pow 10 (-k).toNat
  if reached then k + 1 else k

/-- The same decimal without the zeros at the end of its digits, of which it drops `fuel` at
most. -/
def dropZeros : (fuel : Nat) → Decimal → Decimal
  | 0, d => d
  | fuel + 1, d =>
    if d.digits ≠ 0 ∧ d.digits % 10 = 0 then dropZeros fuel ⟨d.digits / 10, d.exponent + 1⟩
    else d

end Decimal

namespace Magnitude

/-- Of the two multiples of `10^exponent` on either side of a magnitude, the one that rounds
back to it: the nearer of the two if both do, the even one at equal distance. -/
def onGrid? (m : Magnitude) (exponent : Int) : Option Decimal :=
  let num := if 0 ≤ exponent then m.units else m.units * Nat.pow 10 (-exponent).toNat
  let den := if 0 ≤ exponent then unitsPerOne * Nat.pow 10 exponent.toNat else unitsPerOne
  let below := num / den
  let nearer := divideToEven num den
  [nearer, below, below + 1].map (⟨·, exponent⟩) |>.find? (Decimal.nearest · = m)

/-- The first hit on the grids of `digits`, `digits + 1`, … significant digits. -/
def search (m : Magnitude) (leading : Int) : (attempts digits : Nat) → Option Decimal
  | 0, _ => none
  | attempts + 1, digits =>
    match m.onGrid? (leading - digits) with
    | some d => some d
    | none => search m leading attempts (digits + 1)

/-- The decimal with the value of a finite magnitude. -/
def toDecimal (m : Magnitude) : Decimal := ⟨m.units * Nat.pow 5 1074, -1074⟩

/-- The decimal of fewest digits that rounds back to a finite magnitude, the nearest of those. -/
def shortest (m : Magnitude) : Decimal :=
  if m.units = 0 then ⟨0, 0⟩
  else
    let leading := Decimal.leadingExponent m.units unitsPerOne
    ((m.search leading 17 1).getD m.toDecimal).dropZeros 17

end Magnitude

end LoxSyntax
