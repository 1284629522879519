import Mathlib.Data.List.Forall2
import LoxSyntax.Proofs.Lexical.Division

/-! # The token that a segment is

`Segment.Denotes` says which kind and which value belong to the text of a token, from the tables of
kinds. A segment of a token class is a token (`Segment.Cut.exists_token`), and the tokens of a
division are those of its segments of token classes, in order (`Divides.forall₂_tokens`). -/

namespace LoxSyntax

/-- The classes whose lexemes are tokens. -/
def LexicalClass.isToken (cls : LexicalClass) : Bool :=
  cls ∈ [punctuation, operator, slash, string, number, word]

namespace Kind

theorem lookup_eq_some_iff_mem {α β : Type} [BEq α] [LawfulBEq α] {table : List (α × β)} {a : α}
    {b : β} (h : ∀ entry ∈ table, table.lookup entry.1 = some entry.2) :
    table.lookup a = some b ↔ (a, b) ∈ table := by
  constructor
  · intro hlookup
    obtain ⟨before, after, rfl, -⟩ := List.lookup_eq_some_iff.1 hlookup
    simp
  · exact h (a, b)

theorem lookup_keywords_iff {word : String} {kind : Kind} :
    keywords.lookup word = some kind ↔ (word, kind) ∈ keywords :=
  lookup_eq_some_iff_mem (by decide)

theorem ofPunctuation?_eq_some_iff {c : Char} {kind : Kind} :
    ofPunctuation? c = some kind ↔ (c, kind) ∈ punctuation :=
  lookup_eq_some_iff_mem (by decide)

theorem ofOperator?_eq_some_iff {c : Char} {kinds : Kind × Kind} :
    ofOperator? c = some kinds ↔ (c, kinds) ∈ operators :=
  lookup_eq_some_iff_mem (by decide)

/-- A word has a kind of its own exactly if it is reserved. -/
theorem ofWord_eq_iff {word : String} {kind : Kind} :
    ofWord word = kind ↔
      (word, kind) ∈ keywords ∨ kind = identifier ∧ ∀ kind', (word, kind') ∉ keywords := by
  rw [ofWord]
  cases h : keywords.lookup word with
  | none =>
    have hnot : ∀ kind', (word, kind') ∉ keywords := by
      intro kind' hmem
      rw [lookup_keywords_iff.2 hmem] at h
      cases h
    simp [hnot, eq_comm]
  | some kind' =>
    have hmem : (word, kind') ∈ keywords := lookup_keywords_iff.1 h
    rw [Option.getD_some, ← lookup_keywords_iff, h, Option.some_inj]
    exact ⟨.inl, fun h' => h'.resolve_right fun h' => h'.2 _ hmem⟩

theorem lexeme_of_mem_keywords {word : String} {kind : Kind} (h : (word, kind) ∈ keywords) :
    Lexeme .word word.toList := by
  have hall : ∀ entry ∈ keywords, (entry.1.toList.head?.any Character.isLetter &&
      entry.1.toList.all Character.isWord) = true := by decide
  obtain ⟨hfirst, hword⟩ := Bool.and_eq_true_iff.1 (hall _ h)
  obtain ⟨c, hc, hletter⟩ := (Option.any_eq_true ..).1 hfirst
  obtain ⟨cs, hcs⟩ := List.head?_eq_some_iff.1 hc
  rw [hcs] at hword ⊢
  exact .word hletter (List.forall_mem_cons.1 (List.all_eq_true.1 hword)).2

end Kind

namespace Segment

def isToken (s : Segment) : Bool :=
  match s.sort with
  | .lexeme cls => cls.isToken
  | _ => false

/-- The text of the segment is a token of the kind with the value. -/
inductive Denotes : Segment → Kind → Literal → Prop
  | punctuation {c kind} : (c, kind) ∈ Kind.punctuation →
      Denotes ⟨.lexeme .punctuation, [c]⟩ kind .nil
  | operator {c alone withEqual} : (c, alone, withEqual) ∈ Kind.operators →
      Denotes ⟨.lexeme .operator, [c]⟩ alone .nil
  | operatorEqual {c alone withEqual} : (c, alone, withEqual) ∈ Kind.operators →
      Denotes ⟨.lexeme .operator, [c, '=']⟩ withEqual .nil
  | slash : Denotes ⟨.lexeme .slash, ['/']⟩ .slash .nil
  | string {body} : Denotes ⟨.lexeme .string, '"' :: (body ++ ['"'])⟩ .string (.text (.ofList body))
  | number {text value} : Number.ofText? (.ofList text) = some value →
      Denotes ⟨.lexeme .number, text⟩ .number (.number value)
  | keyword {text kind} : (.ofList text, kind) ∈ Kind.keywords →
      Denotes ⟨.lexeme .word, text⟩ kind .nil
  | identifier {text} : (∀ kind, (.ofList text, kind) ∉ Kind.keywords) →
      Denotes ⟨.lexeme .word, text⟩ .identifier .nil

variable {source text : List Char} {cls : LexicalClass} {s : Segment} {kind : Kind}
  {literal : Literal}

theorem Denotes.kind_ne_eof (h : Denotes s kind literal) : kind ≠ .eof := by
  have hpunctuation : ∀ entry ∈ Kind.punctuation, entry.2 ≠ .eof := by decide
  have hoperators : ∀ entry ∈ Kind.operators, entry.2.1 ≠ .eof ∧ entry.2.2 ≠ .eof := by decide
  have hkeywords : ∀ entry ∈ Kind.keywords, entry.2 ≠ .eof := by decide
  cases h with
  | punctuation h => exact hpunctuation _ h
  | operator h => exact (hoperators _ h).1
  | operatorEqual h => exact (hoperators _ h).2
  | keyword h => exact hkeywords _ h
  | _ => decide

theorem Denotes.token?_eq (h : Denotes ⟨.lexeme cls, text⟩ kind literal) (hl : Lexeme cls text)
    (line : Nat) : token? line ⟨.lexeme cls, text⟩ = some ⟨kind, .ofList text, literal, line⟩ := by
  cases h with
  | punctuation h => simp [token?, kind?, Segment.literal, Kind.ofPunctuation?_eq_some_iff.2 h]
  | operator h => simp [token?, kind?, Segment.literal, Kind.ofOperator?_eq_some_iff.2 h]
  | operatorEqual h => simp [token?, kind?, Segment.literal, Kind.ofOperator?_eq_some_iff.2 h]
  | slash => rfl
  | string => simp [token?, kind?, Segment.literal]
  | number h =>
    cases hl.ofText?_eq.symm.trans h
    rfl
  | keyword h => simp [token?, kind?, Segment.literal, Kind.ofWord_eq_iff.2 (.inl h)]
  | identifier h => simp [token?, kind?, Segment.literal, Kind.ofWord_eq_iff.2 (.inr ⟨rfl, h⟩)]

theorem exists_denotes (h : Lexeme cls text) (hcls : cls.isToken) :
    ∃ kind literal, Denotes ⟨.lexeme cls, text⟩ kind literal := by
  cases h with
  | punctuation h => exact ⟨_, _, .punctuation (Kind.ofPunctuation?_eq_some_iff.1 h)⟩
  | operator h => exact ⟨_, _, .operator (Kind.ofOperator?_eq_some_iff.1 h)⟩
  | operatorEqual h => exact ⟨_, _, .operatorEqual (Kind.ofOperator?_eq_some_iff.1 h)⟩
  | slash => exact ⟨_, _, .slash⟩
  | string => exact ⟨_, _, .string⟩
  | integer hc h => exact ⟨_, _, .number (Lexeme.integer hc h).ofText?_eq⟩
  | decimal hc h hd hf => exact ⟨_, _, .number (Lexeme.decimal hc h hd hf).ofText?_eq⟩
  | @word c cs hc h =>
    by_cases hkeyword : ∃ kind, (.ofList (c :: cs), kind) ∈ Kind.keywords
    · obtain ⟨kind, hkind⟩ := hkeyword
      exact ⟨_, _, .keyword hkind⟩
    · exact ⟨_, _, .identifier fun kind hkind => hkeyword ⟨kind, hkind⟩⟩
  | comment | blank | newline => cases hcls

/-- The token is the segment, on the line. -/
structure Matches (s : Segment) (t : Token) : Prop where
  denotes : Denotes s t.kind t.literal
  lexeme : t.lexeme = .ofList s.text

theorem Cut.exists_token (h : Cut source s) (hs : s.isToken) (line : Nat) :
    ∃ t, s.token? line = some t ∧ s.Matches t := by
  cases h with
  | lexeme hl =>
    obtain ⟨kind, literal, hdenotes⟩ := exists_denotes hl hs
    exact ⟨_, hdenotes.token?_eq hl line, hdenotes, rfl⟩
  | unterminated | unexpected => cases hs

theorem token?_eq_none (hs : s.isToken = false) (line : Nat) : s.token? line = none := by
  obtain ⟨sort, text⟩ := s
  cases sort with
  | lexeme cls => cases cls <;> first | rfl | cases hs
  | unterminated | unexpected => rfl

end Segment

namespace Divides

variable {source : List Char} {segments : List Segment}

/-- The tokens of a division are its segments of token classes, in order. -/
theorem forall₂_tokens (h : Divides source segments) (line : Nat) :
    List.Forall₂ Segment.Matches (segments.filter Segment.isToken)
      (Segment.tokens line segments) := by
  induction h generalizing line with
  | nil => exact .nil
  | @cons _ segment _ segments hcut _ _ ih =>
    cases hs : segment.isToken with
    | false =>
      rw [List.filter_cons_of_neg (by simp [hs])]
      simpa [Segment.tokens, Segment.collect, Segment.token?_eq_none hs] using ih _
    | true =>
      obtain ⟨t, ht, hmatches⟩ := hcut.exists_token hs (line + segment.newlines)
      rw [List.filter_cons_of_pos hs]
      simpa [Segment.tokens, Segment.collect, ht] using ⟨hmatches, ih _⟩

theorem isEnd_eq_false_of_mem_tokens (h : Divides source segments) (line : Nat) :
    ∀ t ∈ Segment.tokens line segments, t.isEnd = false := by
  have hmatches := h.forall₂_tokens line
  generalize segments.filter Segment.isToken = matched at hmatches
  generalize Segment.tokens line segments = tokens at hmatches ⊢
  induction hmatches with
  | nil => simp
  | cons hmatch _ ih =>
    refine List.forall_mem_cons.2 ⟨?_, ih⟩
    simpa [Token.isEnd] using hmatch.denotes.kind_ne_eof

end Divides

end LoxSyntax
