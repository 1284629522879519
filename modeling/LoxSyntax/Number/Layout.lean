import LoxSyntax.Number.Basic
import LoxSyntax.Number.Decimal

/-! # The text of a number

A finite number is written with the digits of `Magnitude.shortest`: in positional notation from
10^-4 up to, but not including, 10^16, always with a digit after the point, and in scientific
notation elsewhere, with a signed exponent of two digits or more. `Number.text` writes every
number, and `Number.jsonText` differs from it only in the names of what is not finite. -/

namespace LoxSyntax.Number

/-- The names of the numbers that have no digits. -/
structure SpecialNames where
  infinity : String
  nan : String

/-- Decimal numerals of whole numbers, most significant digit first. -/
private def numeral (n : Nat) : List Char := Nat.toDigits 10 n

/-- Digits with the point after the first `point` of them, which may lie outside the digits;
at least one digit stands on either side. -/
def positional (digits : List Char) (point : Int) : List Char :=
  if point ≤ 0 then
    '0' :: '.' :: (List.replicate (-point).toNat '0' ++ digits)
  else
    let whole := digits.take point.toNat ++ List.replicate (point.toNat - digits.length) '0'
    let fraction := digits.drop point.toNat
    whole ++ '.' :: (if fraction.isEmpty then ['0'] else fraction)

/-- The sign and the digits, two or more, of an exponent. -/
def exponentMark (exponent : Int) : List Char :=
  let digits := numeral exponent.natAbs
  let padded := if digits.length < 2 then '0' :: digits else digits
  'e' :: (if exponent < 0 then '-' else '+') :: padded

/-- Digits with a point after the first of them, which is left out if it is the only one, and
an exponent. -/
def scientific (digits : List Char) (exponent : Int) : List Char :=
  let mantissa :=
    match digits with
    | first :: second :: rest => first :: '.' :: second :: rest
    | short => short
  mantissa ++ exponentMark exponent

/-- A decimal in positional notation if its first digit stands for 10^-4 to 10^15, and in
scientific notation otherwise. -/
def decimalText (d : Decimal) : List Char :=
  let digits := numeral d.digits
  let exponent : Int := d.exponent + digits.length - 1
  if -4 ≤ exponent ∧ exponent < 16 then positional digits (exponent + 1)
  else scientific digits exponent

/-- The text of a number, given the names of those that have no digits. -/
def textWith (names : SpecialNames) : Number → String
  | .nan => names.nan
  | .signed negative m =>
    let sign := if negative then "-" else ""
    if m = .infinity then sign ++ names.infinity
    else sign ++ .ofList (decimalText m.shortest)

def text : Number → String :=
  textWith ⟨"inf", "nan"⟩

def jsonText : Number → String :=
  textWith ⟨"Infinity", "NaN"⟩

end LoxSyntax.Number
