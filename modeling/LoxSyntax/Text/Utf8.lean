/-! # UTF-8

`Utf8.decode` reads octets one at a time. Of a character's octets the first says how many follow
and narrows the range of the second, so that overlong forms, surrogates and values beyond
U+10FFFF are refused at the second octet. A fault tells where the character began and how many
octets of it were valid. `Utf8.encode` writes characters. -/

namespace LoxSyntax.Utf8

/-- What is wrong with a run of octets. -/
inductive Reason
  | startByte
  | continuationByte
  | unexpectedEnd
  deriving DecidableEq

def Reason.message : Reason → String
  | .startByte => "invalid start byte"
  | .continuationByte => "invalid continuation byte"
  | .unexpectedEnd => "unexpected end of data"

/-- The first run of octets that is no character: its position, its first octet, the number of
its octets, and what is wrong with it. -/
structure Fault where
  position : Nat
  octet : UInt8
  length : Nat
  reason : Reason
  deriving DecidableEq

/-- The two lower-case hexadecimal digits of an octet. -/
def hexOctet (octet : UInt8) : String :=
  .ofList [Nat.digitChar (octet.toNat / 16), Nat.digitChar (octet.toNat % 16)]

def Fault.message (f : Fault) : String :=
  let span :=
    if f.length = 1 then "byte 0x" ++ hexOctet f.octet ++ " in position " ++ toString f.position
    else
      "bytes in position " ++ toString f.position ++ "-" ++ toString (f.position + f.length - 1)
  "'utf-8' codec can't decode " ++ span ++ ": " ++ f.reason.message

/-- The range of an octet that continues a character. -/
abbrev Range := Nat × Nat

/-- The range of an octet of which nothing special is asked. -/
def continuation : Range := (0x80, 0xBF)

/-- What the first octet of a character contributes to its value, and the ranges of the octets
that follow. -/
def first? (octet : Nat) : Option (Nat × List Range) :=
  if octet < 0x80 then some (octet, [])
  else if octet < 0xC2 then none
  else if octet < 0xE0 then some (octet - 0xC0, [continuation])
  else if octet < 0xF0 then
    let second := (if octet = 0xE0 then 0xA0 else 0x80, if octet = 0xED then 0x9F else 0xBF)
    some (octet - 0xE0, [second, continuation])
  else if octet < 0xF5 then
    let second := (if octet = 0xF0 then 0x90 else 0x80, if octet = 0xF4 then 0x8F else 0xBF)
    some (octet - 0xF0, [second, continuation, continuation])
  else none

/-- A character of which some octets have been read. -/
structure Partial where
  first : UInt8
  length : Nat
  value : Nat
  /-- The range of the next octet. -/
  next : Range
  /-- The ranges of the octets after it. -/
  rest : List Range

/-- Reads octets from a position on, with the characters before them in reverse order, and with
the character that the position is inside of, if it is inside one. -/
def decodeFrom (position : Nat) (decoded : List Char) :
    Option Partial → List UInt8 → Except Fault (List Char)
  | none, [] => .ok decoded.reverse
  | some p, [] => .error ⟨position - p.length, p.first, p.length, .unexpectedEnd⟩
  | none, octet :: octets =>
    match first? octet.toNat with
    | none => .error ⟨position, octet, 1, .startByte⟩
    | some (value, []) => decodeFrom (position + 1) (Char.ofNat value :: decoded) none octets
    | some (value, next :: rest) =>
      decodeFrom (position + 1) decoded (some ⟨octet, 1, value, next, rest⟩) octets
  | some p, octet :: octets =>
    let n := octet.toNat
    if p.next.1 ≤ n ∧ n ≤ p.next.2 then
      let value := p.value * 64 + (n - 0x80)
      match p.rest with
      | [] => decodeFrom (position + 1) (Char.ofNat value :: decoded) none octets
      | next :: rest =>
        decodeFrom (position + 1) decoded (some ⟨p.first, p.length + 1, value, next, rest⟩) octets
    else .error ⟨position - p.length, p.first, p.length, .continuationByte⟩

def decode (octets : List UInt8) : Except Fault (List Char) :=
  decodeFrom 0 [] none octets

def encode (cs : List Char) : List UInt8 :=
  cs.flatMap String.utf8EncodeChar

end LoxSyntax.Utf8
