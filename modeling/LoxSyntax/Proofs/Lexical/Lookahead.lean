import LoxSyntax.Proofs.Lexical.Munch

/-! # What stands before the rest of a text

Maximal munch compares a segment with every lexeme at the front of the text. One look at what follows
the segment decides the same (`Segment.cut_iff`): `Segment.StandsBefore` says for each class which
characters may not come next, so that a segment stays cut when the text after it changes and its
first characters do not. `Segment.Exchange` says which text may come in the place of another, and a
division goes on with the division of the other text (`Divides.exchange`). -/

namespace LoxSyntax

namespace Character

/-- A character that belongs to no token but a string. -/
def isGap (c : Char) : Bool := isBlank c || c = '\n'

theorem apart_of_isGap {p : Char → Bool} {c : Char} (h : isGap c = true)
    (hp : p ' ' = false ∧ p '\r' = false ∧ p '\t' = false ∧ p '\n' = false) : p c = false := by
  have hc : c = ' ' ∨ c = '\r' ∨ c = '\t' ∨ c = '\n' := by
    simpa [isGap, isBlank, or_assoc] using h
  obtain ⟨hspace, hreturn, htab, hnewline⟩ := hp
  rcases hc with rfl | rfl | rfl | rfl
  · exact hspace
  · exact hreturn
  · exact htab
  · exact hnewline

end Character

namespace Segment

/-- The segment is a lexeme or a fault, and what follows does not belong to it. -/
inductive StandsBefore : Segment → List Char → Prop
  | punctuation {c kind rest} : Kind.ofPunctuation? c = some kind →
      StandsBefore ⟨.lexeme .punctuation, [c]⟩ rest
  | operator {c kinds rest} : Kind.ofOperator? c = some kinds → rest.head? ≠ some '=' →
      StandsBefore ⟨.lexeme .operator, [c]⟩ rest
  | operatorEqual {c kinds rest} : Kind.ofOperator? c = some kinds →
      StandsBefore ⟨.lexeme .operator, [c, '=']⟩ rest
  | slash {rest} : rest.head? ≠ some '/' → StandsBefore ⟨.lexeme .slash, ['/']⟩ rest
  | comment {body rest} : '\n' ∉ body → (∀ d ∈ rest.head?, d = '\n') →
      StandsBefore ⟨.lexeme .comment, '/' :: '/' :: body⟩ rest
  | blank {c rest} : Character.isBlank c → StandsBefore ⟨.lexeme .blank, [c]⟩ rest
  | newline {rest} : StandsBefore ⟨.lexeme .newline, ['\n']⟩ rest
  | string {body rest} : '"' ∉ body → StandsBefore ⟨.lexeme .string, '"' :: (body ++ ['"'])⟩ rest
  | integer {c digits rest} : Character.isDigit c → (∀ d ∈ digits, Character.isDigit d) →
      (∀ d ∈ rest.head?, Character.isDigit d = false) →
      (∀ d more, rest = '.' :: d :: more → Character.isDigit d = false) →
      StandsBefore ⟨.lexeme .number, c :: digits⟩ rest
  | decimal {c digits d fraction rest} : Character.isDigit c → (∀ d ∈ digits, Character.isDigit d) →
      Character.isDigit d → (∀ d ∈ fraction, Character.isDigit d) →
      (∀ d ∈ rest.head?, Character.isDigit d = false) →
      StandsBefore ⟨.lexeme .number, c :: (digits ++ '.' :: d :: fraction)⟩ rest
  | word {c cs rest} : Character.isLetter c → (∀ d ∈ cs, Character.isWord d) →
      (∀ d ∈ rest.head?, Character.isWord d = false) → StandsBefore ⟨.lexeme .word, c :: cs⟩ rest
  | unterminated {body} : '"' ∉ body → StandsBefore ⟨.unterminated, '"' :: body⟩ []
  | unexpected {c rest} : Opening.of c = .nothing → StandsBefore ⟨.unexpected, [c]⟩ rest

variable {c : Char} {source rest text : List Char} {s : Segment} {cls : LexicalClass}

theorem StandsBefore.cut (h : StandsBefore s rest) : Cut (s.text ++ rest) s := by
  cases h with
  | punctuation h => exact .punctuation h
  | operator h hrest => exact .operator h hrest
  | operatorEqual h => exact .operatorEqual h
  | slash hrest => exact .slash hrest
  | comment h hrest => exact .comment h hrest
  | blank h => exact .blank h
  | newline => exact .newline
  | @string body _ h =>
    have hcut : Cut ('"' :: (body ++ '"' :: rest)) _ := .string h
    simpa using hcut
  | integer hc h hrest hpoint => exact .integer hc h hrest hpoint
  | decimal hc h hd hf hrest => simpa using Cut.decimal hc h hd hf hrest
  | word hc h hrest => exact .word hc h hrest
  | unterminated h => simpa using Cut.unterminated_of_not_mem h
  | unexpected h => exact .unexpected_of_nothing h

theorem StandsBefore.lexeme (h : StandsBefore ⟨.lexeme cls, text⟩ rest) : Lexeme cls text := by
  cases h with
  | punctuation h => exact .punctuation h
  | operator h => exact .operator h
  | operatorEqual h => exact .operatorEqual h
  | slash => exact .slash
  | comment h => exact .comment h
  | blank h => exact .blank h
  | newline => exact .newline
  | string h => exact .string h
  | integer hc h => exact .integer hc h
  | decimal hc h hd hf => exact .decimal hc h hd hf
  | word hc h => exact .word hc h

/-- A lexeme stands before the end of a text. -/
theorem StandsBefore.of_lexeme (h : Lexeme cls text) : StandsBefore ⟨.lexeme cls, text⟩ [] := by
  cases h with
  | punctuation h => exact .punctuation h
  | operator h => exact .operator h (by simp)
  | operatorEqual h => exact .operatorEqual h
  | slash => exact .slash (by simp)
  | comment h => exact .comment h (by simp)
  | blank h => exact .blank h
  | newline => exact .newline
  | string h => exact .string h
  | integer hc h => exact .integer hc h (by simp) (by simp)
  | decimal hc h hd hf => exact .decimal hc h hd hf (by simp)
  | word hc h => exact .word hc h (by simp)

/-! ## One look decides -/

theorem exists_standsBefore_slash (rest : List Char) :
    ∃ s more, '/' :: rest = Segment.text s ++ more ∧ StandsBefore s more := by
  by_cases hnext : rest.head? = some '/'
  · obtain ⟨rest, rfl⟩ := List.head?_eq_some_iff.1 hnext
    obtain ⟨body, more, rfl, hbody, hmore⟩ := exists_run (· ≠ '\n') rest
    have hnewline : '\n' ∉ body := fun hmem => by simpa using hbody _ hmem
    exact ⟨_, more, rfl, .comment hnewline (by simpa using hmore)⟩
  · exact ⟨_, rest, rfl, .slash hnext⟩

theorem exists_standsBefore_string (rest : List Char) :
    ∃ s more, '"' :: rest = Segment.text s ++ more ∧ StandsBefore s more := by
  obtain ⟨body, more, rfl, hbody, hmore⟩ := exists_run (· ≠ '"') rest
  have hquote : '"' ∉ body := fun hmem => by simpa using hbody _ hmem
  cases more with
  | nil => exact ⟨_, [], by simp, .unterminated hquote⟩
  | cons d more =>
    obtain rfl : d = '"' := by simpa using hmore d rfl
    exact ⟨_, more, by simp, .string hquote⟩

theorem exists_standsBefore_number (hc : Character.isDigit c = true) (rest : List Char) :
    ∃ s more, c :: rest = Segment.text s ++ more ∧ StandsBefore s more := by
  obtain ⟨digits, more, rfl, hdigits, hmore⟩ := exists_run Character.isDigit rest
  by_cases hpoint : ∃ d fraction, more = '.' :: d :: fraction ∧ Character.isDigit d
  · obtain ⟨d, more, rfl, hd⟩ := hpoint
    obtain ⟨fraction, more, rfl, hf, hmore'⟩ := exists_run Character.isDigit more
    exact ⟨⟨.lexeme .number, c :: (digits ++ '.' :: d :: fraction)⟩, more, by simp,
      .decimal hc hdigits hd hf hmore'⟩
  · refine ⟨⟨.lexeme .number, c :: digits⟩, more, rfl,
      .integer hc hdigits hmore fun d fraction heq => ?_⟩
    rw [← Bool.not_eq_true]
    exact fun hd => hpoint ⟨d, fraction, heq, hd⟩

theorem exists_standsBefore (c : Char) (rest : List Char) :
    ∃ s more, c :: rest = Segment.text s ++ more ∧ StandsBefore s more := by
  have hadmits := Opening.admits_of c
  cases hopening : Opening.of c <;> rw [hopening] at hadmits
  case punctuation kind => exact ⟨_, rest, rfl, .punctuation hadmits⟩
  case operator alone withEqual =>
    by_cases hnext : rest.head? = some '='
    · obtain ⟨more, rfl⟩ := List.head?_eq_some_iff.1 hnext
      exact ⟨_, more, rfl, .operatorEqual hadmits⟩
    · exact ⟨_, rest, rfl, .operator hadmits hnext⟩
  case slash =>
    cases hadmits
    exact exists_standsBefore_slash rest
  case blank => exact ⟨_, rest, rfl, .blank hadmits⟩
  case newline =>
    cases hadmits
    exact ⟨_, rest, rfl, .newline⟩
  case string =>
    cases hadmits
    exact exists_standsBefore_string rest
  case number => exact exists_standsBefore_number hadmits rest
  case word =>
    obtain ⟨cs, more, rfl, hcs, hmore⟩ := exists_run Character.isWord rest
    exact ⟨⟨.lexeme .word, c :: cs⟩, more, rfl, .word hadmits hcs hmore⟩
  case nothing => exact ⟨_, rest, rfl, .unexpected hopening⟩

/-- A segment is the one cut from the front of a text exactly if it stands before the rest. -/
theorem cut_iff : Cut source s ↔ ∃ rest, source = s.text ++ rest ∧ s.StandsBefore rest := by
  constructor
  · intro hcut
    obtain ⟨c, rest, rfl⟩ : ∃ c rest, source = c :: rest := by
      cases source with
      | nil => exact absurd (List.prefix_nil.1 hcut.text_prefix) hcut.text_ne_nil
      | cons c rest => exact ⟨c, rest, rfl⟩
    obtain ⟨s', more, hsource, hstands⟩ := exists_standsBefore c rest
    obtain rfl : s = s' := hcut.unique (hsource ▸ hstands.cut)
    exact ⟨more, hsource, hstands⟩
  · rintro ⟨rest, rfl, hstands⟩
    exact hstands.cut

/-! ## Another text in the place of the rest -/

variable {rest' more : List Char}

/-- The second text begins like the first or with a gap, unless it is empty. -/
def BeginsLike (rest rest' : List Char) : Prop :=
  ∀ d ∈ rest'.head?, d ∈ rest.head? ∨ Character.isGap d

/-- No fraction of a number begins with the text. -/
def NoFraction (rest : List Char) : Prop :=
  ∀ d more, rest = '.' :: d :: more → Character.isDigit d = false

/-- The line ends before the text. -/
def AtLineEnd (rest : List Char) : Prop := ∀ d ∈ rest.head?, d = '\n'

/-- The second text may come in the place of the first: nothing that stands before the first goes on
in the second, but for comments and strings that are not closed. -/
structure Exchange (rest rest' : List Char) : Prop where
  begins : BeginsLike rest rest'
  noFraction : NoFraction rest → NoFraction rest'

theorem BeginsLike.stop {p : Char → Bool} (h : BeginsLike rest rest')
    (hp : p ' ' = false ∧ p '\r' = false ∧ p '\t' = false ∧ p '\n' = false)
    (hrest : ∀ d ∈ rest.head?, p d = false) : ∀ d ∈ rest'.head?, p d = false := by
  intro d hd
  rcases h d hd with hd | hgap
  · exact hrest d hd
  · exact Character.apart_of_isGap hgap hp

theorem BeginsLike.ne {d : Char} (h : BeginsLike rest rest') (hd : Character.isGap d = false)
    (hrest : rest.head? ≠ some d) : rest'.head? ≠ some d := by
  intro heq
  rcases h d heq with heq | hgap
  · exact hrest heq
  · simp [hd] at hgap

theorem StandsBefore.atLineEnd (h : StandsBefore s rest) (hs : s.sort = .lexeme .comment) :
    AtLineEnd rest := by
  cases h with
  | comment _ hrest => exact hrest
  | _ => cases hs

/-- A segment stands before the other text as well. -/
theorem StandsBefore.exchange (h : StandsBefore s rest) (hrest : Exchange rest rest')
    (hcomment : s.sort = .lexeme .comment → AtLineEnd rest')
    (hlast : s.sort = .unterminated → rest ≠ []) : StandsBefore s rest' := by
  obtain ⟨hbegins, hfraction⟩ := hrest
  cases h with
  | punctuation h => exact .punctuation h
  | operator h hnext => exact .operator h (hbegins.ne rfl hnext)
  | operatorEqual h => exact .operatorEqual h
  | slash hnext => exact .slash (hbegins.ne rfl hnext)
  | comment h => exact .comment h (hcomment rfl)
  | blank h => exact .blank h
  | newline => exact .newline
  | string h => exact .string h
  | integer hc h hnext hpoint =>
    exact .integer hc h (hbegins.stop ⟨rfl, rfl, rfl, rfl⟩ hnext) (hfraction hpoint)
  | decimal hc h hd hf hnext =>
    exact .decimal hc h hd hf (hbegins.stop ⟨rfl, rfl, rfl, rfl⟩ hnext)
  | word hc h hnext => exact .word hc h (hbegins.stop ⟨rfl, rfl, rfl, rfl⟩ hnext)
  | unterminated => exact absurd rfl (hlast rfl)
  | unexpected h => exact .unexpected h

namespace Exchange

/-- Only a gap or the end may come in the place of every text. -/
theorem of_gap (h : ∀ d ∈ rest'.head?, Character.isGap d) : Exchange rest rest' := by
  refine ⟨fun d hd => .inr (h d hd), fun _ d more heq => ?_⟩
  have hgap : Character.isGap '.' = true := h '.' (by rw [heq]; rfl)
  cases hgap

theorem of_atLineEnd (h : AtLineEnd rest') : Exchange rest rest' := by
  refine of_gap fun d hd => ?_
  rw [h d hd]
  rfl

/-- After a first character the second decides. -/
theorem cons (c : Char) (h : BeginsLike rest rest') : Exchange (c :: rest) (c :: rest') := by
  refine ⟨fun d hd => .inl hd, fun hpoint d more heq => ?_⟩
  obtain ⟨rfl, rfl⟩ := List.cons.inj heq
  rcases h d rfl with hd | hgap
  · obtain ⟨more', rfl⟩ := List.head?_eq_some_iff.1 hd
    exact hpoint d more' rfl
  · exact Character.apart_of_isGap hgap ⟨rfl, rfl, rfl, rfl⟩

theorem append_left (text : List Char) (h : Exchange rest rest') :
    Exchange (text ++ rest) (text ++ rest') := by
  induction text with
  | nil => exact h
  | cons c text ih => exact cons c ih.begins

/-- A text may go on if it is neither empty nor a point alone. -/
theorem append_right (hne : rest ≠ []) (hpoint : rest ≠ ['.']) (more : List Char) :
    Exchange rest (rest ++ more) := by
  match rest with
  | [] => exact absurd rfl hne
  | [c] =>
    refine ⟨fun d hd => .inl hd, fun _ d more' heq => ?_⟩
    obtain ⟨rfl, -⟩ := List.cons.inj heq
    exact absurd rfl hpoint
  | c :: d :: rest => exact cons c fun e he => .inl he

end Exchange

theorem AtLineEnd.append (h : AtLineEnd rest → AtLineEnd rest') (text : List Char) :
    AtLineEnd (text ++ rest) → AtLineEnd (text ++ rest') := by
  cases text with
  | nil => exact h
  | cons c text => exact id

end Segment

namespace Divides

open Segment

variable {source rest rest' : List Char} {s : Segment} {before after after' segments : List Segment}

theorem of_nil (h : Divides [] segments) : segments = [] := h.unique .nil

/-- The first segment stands before what the others divide. -/
theorem cons_iff :
    Divides source (s :: segments) ↔
      ∃ rest, source = s.text ++ rest ∧ s.StandsBefore rest ∧ Divides rest segments := by
  constructor
  · intro h
    cases h with
    | cons hcut hsource hrest =>
      obtain ⟨rest, hsource', hstands⟩ := cut_iff.1 hcut
      obtain rfl := List.append_cancel_left (hsource.symm.trans hsource')
      exact ⟨_, hsource, hstands, hrest⟩
  · rintro ⟨rest, rfl, hstands, hrest⟩
    exact .cons hstands.cut rfl hrest

theorem exists_standsBefore_of_mem (h : Divides source segments) :
    ∀ s ∈ segments, ∃ rest, s.StandsBefore rest := by
  induction segments generalizing source with
  | nil => simp
  | cons s segments ih =>
    obtain ⟨rest, -, hstands, hrest⟩ := cons_iff.1 h
    exact List.forall_mem_cons.2 ⟨⟨rest, hstands⟩, ih hrest⟩

theorem of_append (h : Divides source (before ++ after)) :
    Divides (after.flatMap Segment.text) after := by
  induction before generalizing source with
  | nil =>
    have hsource : after.flatMap Segment.text = source := h.flatMap_text
    rwa [hsource]
  | cons s before ih =>
    obtain ⟨rest, -, -, hrest⟩ := cons_iff.1 h
    exact ih hrest

/-- A division goes on with that of another text in the place of the rest. -/
theorem exchange (h : Divides source (before ++ after)) (h' : Divides rest' after')
    (hrest : Exchange (after.flatMap Segment.text) rest')
    (hline : AtLineEnd (after.flatMap Segment.text) → AtLineEnd rest')
    (hlast : ∀ s ∈ before, s.sort = .unterminated → after.flatMap Segment.text ≠ []) :
    Divides (before.flatMap Segment.text ++ rest') (before ++ after') := by
  induction before generalizing source with
  | nil => exact h'
  | cons s before ih =>
    obtain ⟨hs, hbefore⟩ := List.forall_mem_cons.1 hlast
    obtain ⟨rest, rfl, hstands, hdivides⟩ := cons_iff.1 h
    obtain rfl : before.flatMap Segment.text ++ after.flatMap Segment.text = rest :=
      List.flatMap_append.symm.trans hdivides.flatMap_text
    refine cons_iff.2 ⟨_, by rw [List.flatMap_cons, List.append_assoc], ?_, ih hdivides hbefore⟩
    refine hstands.exchange (hrest.append_left _) (fun hcomment => ?_) fun hunterminated => ?_
    · exact AtLineEnd.append hline _ (hstands.atLineEnd hcomment)
    · exact fun hnil => hs hunterminated (List.append_eq_nil_iff.1 hnil).2

end Divides

end LoxSyntax
