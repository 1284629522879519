import LoxSyntax.CommandLine.Usage
import LoxSyntax.Text.DecimalDigit

/-! # Pieces of a command line

`Piece.of` tells what an argument is by its own text. A flag may be given by the unique beginning
of its long name; what follows an `=`, or a short name, is its value. An argument that begins with
a dash is positional all the same if it is the dash alone, a negative number, or holds a blank. -/

namespace LoxSyntax.CommandLine

inductive Piece
  | positional (text : String)
  /-- A flag under a long or a short name, with its value if it is given one. -/
  | flag (flag : Flag) (isShort : Bool) (value : Option (List Char))
  /-- An argument that looks like a flag and is none. -/
  | unknown (text : String)
  deriving DecidableEq

/-- Digits, or digits with a point in front of the last run of them. -/
def isNumeral (cs : List Char) : Bool :=
  let whole := cs.takeWhile Text.isDecimalDigit
  match cs.dropWhile Text.isDecimalDigit with
  | [] => !whole.isEmpty
  | '.' :: fraction => !fraction.isEmpty && fraction.all Text.isDecimalDigit
  | _ => false

/-- A dash and a numeral, which a newline may end. -/
def isNegativeNumber : List Char → Bool
  | '-' :: cs => isNumeral cs || (cs.getLast? = some '\n' && isNumeral cs.dropLast)
  | _ => false

/-- The text before the first `=` and, if there is one, the text after it. -/
def splitValue (cs : List Char) : List Char × Option (List Char) :=
  match cs.dropWhile (· ≠ '=') with
  | [] => (cs, none)
  | _ :: value => (cs.takeWhile (· ≠ '='), some value)

/-- The flags that an argument beginning with a dash may mean, each with the name it has in
full. -/
def candidates (argument : List Char) : List (String × Piece) :=
  match argument with
  | '-' :: '-' :: _ =>
    let (name, value) := splitValue argument
    Flag.names.filterMap fun (full, flag) =>
      if name.isPrefixOf full.toList then some (full, .flag flag false value) else none
  | '-' :: letter :: value =>
    match Flag.ofLetter? letter with
    | some flag => [(.ofList ['-', letter], .flag flag true (some value))]
    | none => []
  | _ => []

/-- A flag given by its full name, with or without a value after an `=`. -/
def named? (argument : List Char) : Option Piece :=
  match Flag.ofName? (.ofList argument) with
  | some flag => some (.flag flag (argument.length = 2) none)
  | none =>
    match splitValue argument with
    | (name, some value) =>
      (Flag.ofName? (.ofList name)).map fun flag => .flag flag (name.length = 2) (some value)
    | (_, none) => none

def Piece.of (argument : String) : Except Mistake Piece :=
  let cs := argument.toList
  if cs.head? ≠ some '-' then .ok (.positional argument)
  else
    match named? cs, candidates cs with
    | some piece, _ => .ok piece
    | none, [(_, piece)] => .ok piece
    | none, [] =>
      if cs.length = 1 || isNegativeNumber cs || cs.contains ' ' then .ok (.positional argument)
      else .ok (.unknown argument)
    | none, several => .error (.ambiguous argument (several.map Prod.fst))

end LoxSyntax.CommandLine
