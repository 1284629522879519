import LoxSyntax.Number.Layout
import LoxSyntax.Text.Quoted

/-! # JSON documents

`Json.Value` is a JSON value without arrays, whose objects keep their entries in order, and
`Value.layout` writes one on several lines: an entry a line, two blanks deeper than its object.
Texts are written in printable ASCII: what lies outside is escaped as its one or two UTF-16
units. -/

namespace LoxSyntax.Json

mutual

inductive Value
  | null
  | bool (value : Bool)
  | integer (value : Int)
  | number (value : Number)
  | text (value : String)
  | object (entries : Entries)

inductive Entries
  | empty
  | entry (name : String) (value : Value) (rest : Entries)

end

instance : Inhabited Value := ⟨.null⟩

instance : Inhabited Entries := ⟨.empty⟩

def units16 (c : Char) : List Nat :=
  let n := c.toNat
  if n < 0x10000 then [n]
  else [0xD800 + (n - 0x10000) / 0x400, 0xDC00 + (n - 0x10000) % 0x400]

def escapeChar (c : Char) : List Char :=
  if c = '"' || c = '\\' then ['\\', c]
  else if c = '\n' then ['\\', 'n']
  else if c = '\r' then ['\\', 'r']
  else if c = '\t' then ['\\', 't']
  else if c = '\x08' then ['\\', 'b']
  else if c = '\x0c' then ['\\', 'f']
  else if ' ' ≤ c && c ≤ '~' then [c]
  else (units16 c).flatMap fun unit => '\\' :: 'u' :: Text.hexDigits 4 unit

def quote (text : String) : String :=
  .ofList ('"' :: (text.toList.flatMap escapeChar ++ ['"']))

/-- The blanks at the beginning of a line at a depth. -/
def indentation (depth : Nat) : String :=
  .ofList (List.replicate (2 * depth) ' ')

mutual

/-- A value on several lines, the first of which begins elsewhere, at a depth. -/
def Value.layout (depth : Nat) : Value → String
  | .null => "null"
  | .bool value => if value then "true" else "false"
  | .integer value => toString value
  | .number value => value.jsonText
  | .text value => quote value
  | .object .empty => "\x7b\x7d"
  | .object (.entry name value rest) =>
    "\x7b\n" ++ indentation (depth + 1) ++ quote name ++ ": " ++ value.layout (depth + 1) ++
      rest.layout (depth + 1) ++ "\n" ++ indentation depth ++ "\x7d"

/-- The entries after the first, each after a comma on a line of its own. -/
def Entries.layout (depth : Nat) : Entries → String
  | .empty => ""
  | .entry name value rest =>
    ",\n" ++ indentation depth ++ quote name ++ ": " ++ value.layout depth ++ rest.layout depth

end

end LoxSyntax.Json
