import LoxSyntax.Proofs.Lexical.Numeral
import LoxSyntax.Scan.Basic

/-! # Division of a source text

`Segment.Cut` says which segment stands at the front of a text: the longest lexeme there, of
whatever class, or if there is none the whole rest after an opening quotation mark, or else one
character. `Divides` cuts a text into segments one after the other, in one way at most
(`Divides.unique`). The tokens and the diagnostics of a division are written down directly
(`Segment.tokens`, `Segment.diagnostics`), with each line counted from the newlines in the
segments. -/

namespace LoxSyntax

/-- What a segment of a source text is. -/
inductive Segment.Sort
  | lexeme (cls : LexicalClass)
  | unterminated
  | unexpected
  deriving DecidableEq

/-- A piece of a source text. -/
structure Segment where
  sort : Segment.Sort
  text : List Char
  deriving DecidableEq

namespace Segment

/-- No lexeme stands at the front of the text. -/
def NoLexeme (source : List Char) : Prop := ∀ cls text, Lexeme cls text → ¬ text <+: source

/-- The segment is cut from the front of the text. -/
inductive Cut : List Char → Segment → Prop
  | lexeme {source cls text} : Lexeme cls text → text <+: source →
      (∀ cls' text', Lexeme cls' text' → text' <+: source → text'.length ≤ text.length) →
      Cut source ⟨.lexeme cls, text⟩
  | unterminated {rest} : NoLexeme ('"' :: rest) → Cut ('"' :: rest) ⟨.unterminated, '"' :: rest⟩
  | unexpected {c rest} : NoLexeme (c :: rest) → c ≠ '"' → Cut (c :: rest) ⟨.unexpected, [c]⟩

/-- How many newlines there are in the segment. -/
def newlines (s : Segment) : Nat := s.text.count '\n'

/-- The kind of the token that the segment is, if it is one. -/
def kind? (s : Segment) : Option Kind :=
  match s.sort, s.text with
  | .lexeme .punctuation, c :: _ => Kind.ofPunctuation? c
  | .lexeme .operator, [c] => (Kind.ofOperator? c).map Prod.fst
  | .lexeme .operator, c :: _ => (Kind.ofOperator? c).map Prod.snd
  | .lexeme .slash, _ => some .slash
  | .lexeme .string, _ => some .string
  | .lexeme .number, _ => some .number
  | .lexeme .word, text => some (Kind.ofWord (.ofList text))
  | _, _ => none

/-- The value of the token that the segment is: a text without its quotation marks, or the number
nearest to a decimal. -/
def literal (s : Segment) : Literal :=
  match s.sort with
  | .lexeme .string => .text (.ofList s.text.tail.dropLast)
  | .lexeme .number => .number (.signed false (Decimal.ofLexeme s.text).nearest)
  | _ => .nil

/-- The token that the segment is, if it is one. -/
def token? (line : Nat) (s : Segment) : Option Token :=
  s.kind?.map fun kind => ⟨kind, .ofList s.text, s.literal, line⟩

/-- What is wrong with the segment, if anything is. -/
def problem? (s : Segment) : Option Scan.Problem :=
  match s.sort with
  | .lexeme _ => none
  | .unterminated => some .unterminatedString
  | .unexpected => some .unexpectedCharacter

/-- The diagnostic of the segment, if anything is wrong with it. -/
def diagnostic? (line : Nat) (s : Segment) : Option Diagnostic :=
  s.problem?.map fun problem => ⟨line, problem.message, ""⟩

/-- What is found in the segments one after the other, each with the line on which it ends, if the
first begins on the line. -/
def collect {α : Type} (find? : Nat → Segment → Option α) (line : Nat) : List Segment → List α
  | [] => []
  | s :: segments =>
    (find? (line + s.newlines) s).toList ++ collect find? (line + s.newlines) segments

theorem collect_append {α : Type} (find? : Nat → Segment → Option α) (line : Nat)
    (before after : List Segment) :
    collect find? line (before ++ after) = collect find? line before ++
      collect find? (line + (before.flatMap text).count '\n') after := by
  induction before generalizing line with
  | nil => rfl
  | cons s before ih =>
    simp only [List.cons_append, collect, ih, List.flatMap_cons, List.count_append, newlines,
      List.append_assoc, Nat.add_assoc]

/-- The tokens of the segments, if the first begins on the line. -/
def tokens : Nat → List Segment → List Token := collect token?

/-- The diagnostics of the segments, if the first begins on the line. -/
def diagnostics : Nat → List Segment → List Diagnostic := collect diagnostic?

end Segment

/-- The text is cut into the segments from front to end. -/
inductive Divides : List Char → List Segment → Prop
  | nil : Divides [] []
  | cons {source segment rest segments} : Segment.Cut source segment →
      source = segment.text ++ rest → Divides rest segments → Divides source (segment :: segments)

theorem Lexeme.newlines_eq_zero {cls : LexicalClass} {text : List Char} (h : Lexeme cls text)
    (hcls : cls.isOneLine) : Segment.newlines ⟨.lexeme cls, text⟩ = 0 :=
  List.count_eq_zero.2 (h.newline_not_mem hcls)

namespace Segment.Cut

variable {source : List Char} {s s' : Segment}

theorem text_ne_nil (h : Cut source s) : s.text ≠ [] := by
  cases h with
  | lexeme h => exact h.ne_nil
  | unterminated => simp
  | unexpected => simp

theorem text_prefix (h : Cut source s) : s.text <+: source := by
  cases h with
  | lexeme _ h => exact h
  | unterminated => exact List.prefix_rfl
  | unexpected => exact ⟨_, rfl⟩

theorem unique (h : Cut source s) (h' : Cut source s') : s = s' := by
  cases h with
  | @lexeme _ cls text hl hp hmax =>
    cases h' with
    | @lexeme _ cls' text' hl' hp' hmax' =>
      obtain rfl : text = text' := (List.prefix_of_prefix_length_le hp hp' (hmax' _ _ hl hp)).eq_of_length
        (Nat.le_antisymm (hmax' _ _ hl hp) (hmax _ _ hl' hp'))
      rw [hl.class_unique hl']
    | unterminated hn => exact absurd hp (hn _ _ hl)
    | unexpected hn => exact absurd hp (hn _ _ hl)
  | unterminated hn =>
    cases h' with
    | lexeme hl hp => exact absurd hp (hn _ _ hl)
    | unterminated => rfl
    | unexpected _ hc => exact absurd rfl hc
  | unexpected hn hc =>
    cases h' with
    | lexeme hl hp => exact absurd hp (hn _ _ hl)
    | unterminated => exact absurd rfl hc
    | unexpected => rfl

end Segment.Cut

namespace Divides

variable {source : List Char} {segments segments' : List Segment}

theorem flatMap_text (h : Divides source segments) : segments.flatMap Segment.text = source := by
  induction h with
  | nil => rfl
  | cons _ hsource _ ih => rw [List.flatMap_cons, ih, hsource]

theorem text_ne_nil (h : Divides source segments) : ∀ s ∈ segments, s.text ≠ [] := by
  induction h with
  | nil => simp
  | cons hcut _ _ ih => exact List.forall_mem_cons.2 ⟨hcut.text_ne_nil, ih⟩

theorem unique (h : Divides source segments) (h' : Divides source segments') :
    segments = segments' := by
  induction h generalizing segments' with
  | nil =>
    cases h' with
    | nil => rfl
    | cons hcut => exact absurd (List.prefix_nil.1 hcut.text_prefix) hcut.text_ne_nil
  | cons hcut hsource _ ih =>
    cases h' with
    | nil => exact absurd (List.prefix_nil.1 hcut.text_prefix) hcut.text_ne_nil
    | cons hcut' hsource' hrest =>
      obtain rfl := hcut.unique hcut'
      obtain rfl := List.append_cancel_left (hsource.symm.trans hsource')
      rw [ih hrest]

end Divides

end LoxSyntax
