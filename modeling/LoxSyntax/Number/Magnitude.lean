/-! # Magnitudes of binary64 numbers

A `Magnitude` is a non-negative binary64 number, infinity included, given by its place in the
increasing order of all of them: 0 is zero, 1 the least positive number, and the places of one
binade are 2^52 in number. Every magnitude is a whole multiple of 2^-1074 (`units`).
`nearest` rounds a quotient to the nearest magnitude, a tie going to the even place. Counting
infinity as 2^1024 makes the rule uniform: what reaches the midpoint above the greatest finite
number rounds to infinity. -/

namespace LoxSyntax

/-- How many places one binade has. -/
def Magnitude.binade : Nat := Nat.pow 2 52

/-- The place of infinity: 2047 binades of finite numbers lie below it. -/
def Magnitude.infinityPlace : Nat := 2047 * binade

/-- A non-negative binary64 number, by its place in increasing order. -/
structure Magnitude where
  place : Nat
  place_le : place ≤ Magnitude.infinityPlace
  deriving DecidableEq

namespace Magnitude

instance : Inhabited Magnitude := ⟨⟨0, Nat.zero_le _⟩⟩

/-- The magnitude at a place, infinity for every place beyond it. -/
def ofPlace (place : Nat) : Magnitude :=
  ⟨min place infinityPlace, Nat.min_le_right ..⟩

def zero : Magnitude := ofPlace 0

def infinity : Magnitude := ofPlace infinityPlace

/-- How often the distance between neighbours has doubled below this magnitude. -/
def scale (m : Magnitude) : Nat := m.place / binade - 1

/-- The whole number that `scale` doublings of the least positive number are multiplied by. -/
def significand (m : Magnitude) : Nat := m.place - m.scale * binade

/-- The value as a multiple of 2^-1074. -/
def units (m : Magnitude) : Nat := m.significand * Nat.pow 2 m.scale

def unitsPerOne : Nat := Nat.pow 2 1074

/-- The quotient rounded to the nearest whole number, a half to the even one. -/
def divideToEven (num den : Nat) : Nat :=
  let quotient := num / den
  let remainder := num % den
  if 2 * remainder < den then quotient
  else if den < 2 * remainder then quotient + 1
  else quotient + quotient % 2

/-- The magnitude nearest to `num / den`, a tie going to the even place. -/
def nearest (num den : Nat) : Magnitude :=
  let scaled := num * unitsPerOne
  let scale := Nat.log2 (scaled / den) - 52
  ofPlace (scale * binade + divideToEven scaled (den * Nat.pow 2 scale))

end Magnitude

end LoxSyntax
