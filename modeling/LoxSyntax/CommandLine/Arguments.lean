import LoxSyntax.CommandLine.Piece

/-! # Reading a command line

`Arguments.read` goes through the pieces from left to right. The first positional argument is the
source, and flags are set as they come. Arguments that find no place are kept and reported
together at the end, so the explanation of the arguments, once asked for, comes before them. The
first `--` makes all that follows positional; it is dropped if the source stands next to it or is
missing, and finds no place otherwise. -/

namespace LoxSyntax.CommandLine

structure Arguments where
  source : Option String := none
  flags : List Flag := []
  deriving DecidableEq, Inhabited

inductive Stop
  /-- The explanation of the arguments is asked for. -/
  | help
  | mistake (mistake : Mistake)
  deriving DecidableEq

structure Progress where
  arguments : Arguments := {}
  /-- Arguments without a place, in order. -/
  leftOver : List String := []

namespace Progress

/-- Keeps arguments that find no place. -/
def leave (texts : List String) (p : Progress) : Progress :=
  { p with leftOver := p.leftOver ++ texts }

/-- Takes a positional argument for the source. -/
def setSource (text : String) (p : Progress) : Progress :=
  { p with arguments.source := some text }

/-- Places positional arguments in a row. -/
def place (texts : List String) (p : Progress) : Progress :=
  match p.arguments.source, texts with
  | none, text :: more => (p.setSource text).leave more
  | _, texts => p.leave texts

def set (flags : List Flag) (p : Progress) : Except Stop Progress :=
  if .help ∈ flags then .error .help
  else .ok { p with arguments.flags := p.arguments.flags ++ flags }

/-- Places the positional arguments after the last flag, and those after `--` if there is one. -/
def finish (texts : List String) (afterDashes : Option (List String)) (p : Progress) : Progress :=
  match afterDashes with
  | none => p.place texts
  | some more =>
    match p.arguments.source, texts with
    | none, [] => p.place more
    | none, [text] => (p.setSource text).leave more
    | _, _ => p.place (texts ++ "--" :: more)

end Progress

/-- The flags that one piece sets: after a short name come the letters of other short names. -/
def expand (flag : Flag) : List Char → Except Mistake (List Flag)
  | [] => .ok [flag]
  | letter :: letters =>
    match Flag.ofLetter? letter with
    | some next => (expand next letters).map (flag :: ·)
    | none => .error (.unwantedValue flag (.ofList (letter :: letters)))

def flagsOf (flag : Flag) (isShort : Bool) : Option (List Char) → Except Mistake (List Flag)
  | none => .ok [flag]
  | some value =>
    if isShort && !value.isEmpty then expand flag value
    else .error (.unwantedValue flag (.ofList value))

/-- Goes through pieces, with the positional arguments since the last flag in hand. -/
def walk (afterDashes : Option (List String)) (p : Progress) (inHand : List String) :
    List Piece → Except Stop Progress
  | [] => .ok (p.finish inHand afterDashes)
  | .positional text :: pieces => walk afterDashes p (inHand ++ [text]) pieces
  | .unknown text :: pieces => walk afterDashes ((p.place inHand).leave [text]) [] pieces
  | .flag flag isShort value :: pieces =>
    match flagsOf flag isShort value with
    | .error mistake => .error (.mistake mistake)
    | .ok flags =>
      match (p.place inHand).set flags with
      | .error stop => .error stop
      | .ok p => walk afterDashes p [] pieces

/-- The arguments before the first `--` and those after it. -/
def splitAtDashes (arguments : List String) : List String × Option (List String) :=
  match arguments.dropWhile (· ≠ "--") with
  | [] => (arguments, none)
  | _ :: more => (arguments.takeWhile (· ≠ "--"), some more)

def Arguments.read (arguments : List String) : Except Stop Arguments := do
  let (before, afterDashes) := splitAtDashes arguments
  let pieces ← (before.mapM Piece.of).mapError .mistake
  let p ← walk afterDashes {} [] pieces
  if p.leftOver.isEmpty then return p.arguments
  else throw (.mistake (.unrecognized p.leftOver))

end LoxSyntax.CommandLine
