import LoxSyntax.Number.Basic
import LoxSyntax.Number.Decimal
import LoxSyntax.Text.Blank
import LoxSyntax.Text.DecimalDigit

/-! # Reading a number

`Number.ofText?` reads a decimal numeral: an optional sign; digits with at most one point, digits
standing before it or after it; an optional exponent. Single underscores may separate digits, the
digits may be of any script, and blanks around the numeral do not count (the information
separators do). The words `inf`, `infinity` and `nan`, in any case, are read as well. The value is
the nearest binary64 number. -/

namespace LoxSyntax.Number

/-- Blanks that may surround a numeral: all but the information separators. -/
def surrounds (c : Char) : Bool :=
  Text.isBlank c && !(28 ≤ c.toNat && c.toNat ≤ 31)

/-- A digit of any script as a digit of ASCII; every other character stays as it is. -/
def asciiDigit (c : Char) : Char :=
  match Text.digitValue? c with
  | some value => Nat.digitChar value
  | none => c

/-- Drops underscores that stand between two digits; `none` if one stands elsewhere. -/
def dropSeparators? : (afterDigit : Bool) → List Char → Option (List Char)
  | _, [] => some []
  | afterDigit, '_' :: rest =>
    match rest with
    | next :: _ => if afterDigit && next.isDigit then dropSeparators? false rest else none
    | [] => none
  | _, c :: rest => (dropSeparators? c.isDigit rest).map (c :: ·)

/-- The whole number that a run of digits stands for. -/
def digitsValue (digits : List Char) : Nat := Nat.ofDigitChars 10 digits 0

/-- An exponent mark with its sign and at least one digit; nothing at all is the exponent 0. -/
def exponentOf? : List Char → Option Int
  | [] => some 0
  | e :: rest =>
    if e = 'e' || e = 'E' then
      let (negative, digits) :=
        match rest with
        | '-' :: digits => (true, digits)
        | '+' :: digits => (false, digits)
        | digits => (false, digits)
      if !digits.isEmpty && digits.all Char.isDigit then
        some (if negative then -(digitsValue digits : Int) else digitsValue digits)
      else none
    else none

/-- An unsigned decimal numeral of ASCII characters without separators.

An exponent beyond `400` more than the number of digits settles the value, infinity or zero, and
is cut there. -/
def decimalOf? (numeral : List Char) : Option Decimal :=
  let whole := numeral.takeWhile Char.isDigit
  let rest := numeral.dropWhile Char.isDigit
  let (fraction, rest) :=
    match rest with
    | '.' :: rest => (rest.takeWhile Char.isDigit, rest.dropWhile Char.isDigit)
    | rest => ([], rest)
  if whole.isEmpty && fraction.isEmpty then none
  else do
    let exponent ← exponentOf? rest
    let limit : Int := 400 + whole.length + fraction.length
    let exponent := max (-limit) (min limit exponent)
    some ⟨digitsValue (whole ++ fraction), exponent - fraction.length⟩

/-- A number without its sign. -/
def unsigned? (negative : Bool) (numeral : List Char) : Option Number :=
  let word := String.ofList (numeral.map Char.toLower)
  if word = "inf" || word = "infinity" then some (.signed negative .infinity)
  else if word = "nan" then some .nan
  else (decimalOf? numeral).map fun d => .signed negative d.nearest

/-- The number that a text stands for, if it is a numeral. -/
def ofText? (text : String) : Option Number := do
  let plain := (Text.trimBoth surrounds text.toList).map asciiDigit
  let plain ← dropSeparators? false plain
  match plain with
  | '-' :: numeral => unsigned? true numeral
  | '+' :: numeral => unsigned? false numeral
  | numeral => unsigned? false numeral

end LoxSyntax.Number
