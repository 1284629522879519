/-! # Flags of the command line

The flags take no values. Each has a long name, and two have a short one as well; `Flag.names`
lists all names in the order in which they are searched. -/

namespace LoxSyntax.CommandLine

inductive Flag
  | help
  /-- The source is the text itself and not a path. -/
  | string
  | tokens
  | json
  | strict
  | session
  deriving DecidableEq

namespace Flag

def names : List (String × Flag) :=
  [("-h", help), ("--help", help), ("-s", string), ("--string", string), ("--tokens", tokens),
   ("--json", json), ("--strict", strict), ("--repl", session)]

def ofName? (name : String) : Option Flag :=
  names.lookup name

/-- The flag whose short name has a letter. -/
def ofLetter? (letter : Char) : Option Flag :=
  ofName? (.ofList ['-', letter])

def title (flag : Flag) : String :=
  "/".intercalate ((names.filter (·.2 = flag)).map Prod.fst)

end Flag

end LoxSyntax.CommandLine
