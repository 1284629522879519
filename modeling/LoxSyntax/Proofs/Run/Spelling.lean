import LoxSyntax.Proofs.Grammar.Normal
import LoxSyntax.Proofs.Scan.Spacing

/-! # Spelling a tree

`Expr.Writable` trees are those that some text has. `Expr.Spelled` writes a tree as the segments of
its tokens, without regard to precedence and with any lexeme for a number of the right value. Tokens
that match the segments again are the tokens of the same tree up to lines
(`Expr.Spelled.exists_yields`). -/

namespace LoxSyntax

def Token.eraseLine (t : Token) : Token := { t with line := 0 }

namespace Expr

def eraseLines : Expr → Expr
  | literal value _ => .literal value 0
  | grouping inner _ => .grouping inner.eraseLines 0
  | unary operator right => .unary operator.eraseLine right.eraseLines
  | binary left operator right =>
    .binary left.eraseLines operator.eraseLine right.eraseLines
  | reference name => .reference name.eraseLine
  | unknown => .unknown

/-- The tree can be written: each operator and each name is a token with the text and the value of
one, names are not reserved, texts contain no quotation mark, and each number is the value of some
number lexeme. -/
def Writable : Expr → Prop
  | literal .nil _ | literal (.bool _) _ => True
  | literal (.number value) _ =>
    ∃ text, Lexeme .number text ∧ Number.ofText? (.ofList text) = some value
  | literal (.text value) _ => '"' ∉ value.toList
  | grouping inner _ => inner.Writable
  | unary operator right =>
    operator.kind ∈ Rule.unaryOperators ∧ (∃ s : Segment, s.IsTokenLexeme ∧ s.Matches operator) ∧
      right.Writable
  | binary left operator right =>
    left.Writable ∧ operator.kind ∈ Rule.expression.chained ∧
      (∃ s : Segment, s.IsTokenLexeme ∧ s.Matches operator) ∧ right.Writable
  | reference name =>
    name.kind = .identifier ∧ name.literal = .nil ∧ Lexeme .word name.lexeme.toList ∧
      ∀ kind, (name.lexeme, kind) ∉ Kind.keywords
  | unknown => False

/-- The segments are the tokens of the tree from left to right. -/
inductive Spelled : Expr → List Segment → Prop
  | leaf {s t e} : s.IsTokenLexeme → s.Matches t → t.leaf? = some e → Spelled e [s]
  | grouping {inner segments line} : Spelled inner segments →
      Spelled (.grouping inner line)
        (⟨.lexeme .punctuation, ['(']⟩ :: segments ++ [⟨.lexeme .punctuation, [')']⟩])
  | unary {s operator right segments} : s.IsTokenLexeme → s.Matches operator →
      operator.kind ∈ Rule.unaryOperators → Spelled right segments →
      Spelled (.unary operator right) (s :: segments)
  | binary {left ls s operator right rs} : Spelled left ls → s.IsTokenLexeme → s.Matches operator →
      operator.kind ∈ Rule.expression.chained → Spelled right rs →
      Spelled (.binary left operator right) (ls ++ s :: rs)

end Expr

section Lines

variable {s : Segment} {t t' : Token} {e e' : Expr}

theorem Segment.Matches.token?_eq (h : s.Matches t) (hs : s.IsTokenLexeme) :
    s.token? 0 = some t.eraseLine := by
  obtain ⟨hl, -⟩ := hs
  rw [h.denotes.token?_eq hl, Token.eraseLine, h.lexeme]
  rfl

theorem Segment.Matches.eraseLine_eq (hs : s.IsTokenLexeme) (h : s.Matches t) (h' : s.Matches t') :
    t.eraseLine = t'.eraseLine :=
  Option.some.inj ((h.token?_eq hs).symm.trans (h'.token?_eq hs))

theorem Segment.Matches.kind_eq {c : Char} {kind : Kind} (hc : Kind.ofPunctuation? c = some kind)
    (h : Segment.Matches ⟨.lexeme .punctuation, [c]⟩ t) : t.kind = kind := by
  have htoken := h.token?_eq ⟨.punctuation hc, rfl⟩
  have hkind : Segment.kind? ⟨.lexeme .punctuation, [c]⟩ = some kind := hc
  rw [Segment.token?, hkind] at htoken
  exact (congrArg Token.kind (Option.some.inj htoken)).symm

theorem Token.exists_leaf?_of_eraseLine_eq (ht : t.eraseLine = t'.eraseLine)
    (h : t.leaf? = some e) : ∃ e', t'.leaf? = some e' ∧ e'.eraseLines = e.eraseLines := by
  obtain ⟨kind, lexeme, literal, line⟩ := t
  obtain ⟨kind', lexeme', literal', line'⟩ := t'
  obtain ⟨rfl, rfl, rfl, -⟩ := Token.mk.inj ht
  cases kind <;> cases h <;> exact ⟨_, rfl, rfl⟩

theorem Expr.nesting_eraseLines (e : Expr) : e.eraseLines.nesting = e.nesting := by
  induction e with
  | grouping _ _ ih | unary _ _ ih => simp only [eraseLines, nesting, ih]
  | binary _ _ _ ihl ihr => simp only [eraseLines, nesting, ihl, ihr]
  | literal | reference | unknown => rfl

theorem Expr.looserThan_eraseLines (e : Expr) (rank : Nat) :
    e.eraseLines.looserThan rank = e.looserThan rank := by
  cases e <;> rfl

theorem Expr.normal_eraseLines_iff : e.eraseLines.Normal ↔ e.Normal := by
  induction e with
  | grouping _ _ ih => exact ih
  | unary _ _ ih => simp only [eraseLines, Normal, looserThan_eraseLines, ih]
  | binary _ _ _ ihl ihr =>
    simp only [eraseLines, Normal, looserThan_eraseLines, Token.eraseLine, ihl, ihr]
  | literal | reference | unknown => exact Iff.rfl

end Lines

section Forall₂

variable {α β : Type} {R : α → β → Prop} {as as' : List α} {bs : List β}

theorem exists_append_of_forall₂ (h : List.Forall₂ R (as ++ as') bs) :
    ∃ cs cs', bs = cs ++ cs' ∧ List.Forall₂ R as cs ∧ List.Forall₂ R as' cs' := by
  induction as generalizing bs with
  | nil => exact ⟨[], bs, rfl, .nil, h⟩
  | cons a as ih =>
    obtain ⟨b, bs, hab, hrest, rfl⟩ := List.forall₂_cons_left_iff.1 h
    obtain ⟨cs, cs', rfl, hcs, hcs'⟩ := ih hrest
    exact ⟨b :: cs, cs', rfl, .cons hab hcs, hcs'⟩

end Forall₂

namespace Expr

variable {e : Expr} {segments : List Segment} {ts : List Token}

theorem Spelled.isTokenLexeme (h : Spelled e segments) : ∀ s ∈ segments, s.IsTokenLexeme := by
  have hparenthesis : ∀ c kind, Kind.ofPunctuation? c = some kind →
      Segment.IsTokenLexeme ⟨.lexeme .punctuation, [c]⟩ := fun c kind h => ⟨.punctuation h, rfl⟩
  induction h with
  | leaf hs => simpa using hs
  | grouping _ ih =>
    simp only [List.cons_append, List.forall_mem_cons, List.forall_mem_append]
    exact ⟨hparenthesis '(' _ rfl, ih, by simpa using hparenthesis ')' _ rfl⟩
  | unary hs _ _ _ ih => exact List.forall_mem_cons.2 ⟨hs, ih⟩
  | binary _ hs _ _ _ ihl ihr =>
    exact List.forall_mem_append.2 ⟨ihl, List.forall_mem_cons.2 ⟨hs, ihr⟩⟩

/-- Tokens that match the segments of a tree are those of a tree that differs from it in lines
only. -/
theorem Spelled.exists_yields (h : Spelled e segments) (hts : List.Forall₂ Segment.Matches segments ts) :
    ∃ e', Yields e' ts ∧ e'.eraseLines = e.eraseLines := by
  induction h generalizing ts with
  | leaf hs ht hleaf =>
    obtain ⟨t', ts, ht', hrest, rfl⟩ := List.forall₂_cons_left_iff.1 hts
    cases hrest
    obtain ⟨e', hleaf', herase⟩ := Token.exists_leaf?_of_eraseLine_eq (ht.eraseLine_eq hs ht') hleaf
    exact ⟨e', .leaf hleaf', herase⟩
  | grouping _ ih =>
    obtain ⟨opening, ts, hopening, hrest, rfl⟩ := List.forall₂_cons_left_iff.1 hts
    obtain ⟨us, us', rfl, hus, hus'⟩ := exists_append_of_forall₂ hrest
    obtain ⟨closing, ts, hclosing, hnil, rfl⟩ := List.forall₂_cons_left_iff.1 hus'
    cases hnil
    obtain ⟨e', hyields, herase⟩ := ih hus
    exact ⟨.grouping e' opening.line,
      .grouping (hopening.kind_eq rfl) (hclosing.kind_eq rfl) hyields, by simp only [eraseLines, herase]⟩
  | unary hs hoperator hmem _ ih =>
    obtain ⟨operator', ts, hoperator', hrest, rfl⟩ := List.forall₂_cons_left_iff.1 hts
    obtain ⟨e', hyields, herase⟩ := ih hrest
    have hsame := hoperator.eraseLine_eq hs hoperator'
    have hkind := congrArg Token.kind hsame
    refine ⟨.unary operator' e', .unary (hkind ▸ hmem) hyields, ?_⟩
    simp only [eraseLines, herase, hsame]
  | binary _ hs hoperator hmem _ ihl ihr =>
    obtain ⟨us, us', rfl, hus, hus'⟩ := exists_append_of_forall₂ hts
    obtain ⟨operator', ts, hoperator', hrest, rfl⟩ := List.forall₂_cons_left_iff.1 hus'
    obtain ⟨left', hl, hlerase⟩ := ihl hus
    obtain ⟨right', hr, hrerase⟩ := ihr hrest
    have hsame := hoperator.eraseLine_eq hs hoperator'
    have hkind := congrArg Token.kind hsame
    refine ⟨.binary left' operator' right', .binary (hkind ▸ hmem) hl hr, ?_⟩
    simp only [eraseLines, hlerase, hrerase, hsame]

theorem spelled_keyword (word : String) (kind : Kind) {line : Int}
    (hmem : (word, kind) ∈ Kind.keywords)
    (hleaf : Token.leaf? ⟨kind, word, .nil, line⟩ = some e) :
    Spelled e [⟨.lexeme .word, word.toList⟩] := by
  refine .leaf ⟨Kind.lexeme_of_mem_keywords hmem, rfl⟩ ⟨.keyword ?_, ?_⟩ hleaf
  · simpa using hmem
  · simp

theorem spelled_reference {name : Token} (h : Writable (.reference name)) :
    Spelled (.reference name) [⟨.lexeme .word, name.lexeme.toList⟩] := by
  obtain ⟨hkind, hliteral, hword, hkeyword⟩ := h
  have hdenotes : Segment.Denotes ⟨.lexeme .word, name.lexeme.toList⟩ name.kind name.literal := by
    rw [hkind, hliteral]
    exact .identifier (by simpa using hkeyword)
  refine .leaf ⟨hword, rfl⟩ ⟨hdenotes, by simp⟩ ?_
  simp only [Token.leaf?, hkind]

/-- Every writable tree is spelled in some way. -/
theorem Writable.exists_spelled (h : e.Writable) : ∃ segments, Spelled e segments := by
  induction e with
  | literal value line =>
    cases value with
    | nil => exact ⟨_, spelled_keyword "nil" .nilWord (by decide) rfl⟩
    | bool value =>
      cases value with
      | false => exact ⟨_, spelled_keyword "false" .falseWord (by decide) rfl⟩
      | true => exact ⟨_, spelled_keyword "true" .trueWord (by decide) rfl⟩
    | number value =>
      obtain ⟨text, hl, hvalue⟩ := h
      exact ⟨_, .leaf (t := ⟨.number, .ofList text, .number value, line⟩) ⟨hl, rfl⟩
        ⟨.number hvalue, rfl⟩ rfl⟩
    | text value =>
      have hdenotes : Segment.Denotes ⟨.lexeme .string, '"' :: (value.toList ++ ['"'])⟩ .string
          (.text (.ofList value.toList)) := .string
      rw [String.ofList_toList] at hdenotes
      exact ⟨_, .leaf (t := ⟨.string, _, .text value, line⟩) ⟨.string h, rfl⟩ ⟨hdenotes, rfl⟩ rfl⟩
  | grouping inner line ih =>
    obtain ⟨segments, hinner⟩ := ih h
    exact ⟨_, .grouping hinner⟩
  | unary operator right ih =>
    obtain ⟨hmem, ⟨s, hs, hoperator⟩, hright⟩ := h
    obtain ⟨segments, hspelled⟩ := ih hright
    exact ⟨_, .unary hs hoperator hmem hspelled⟩
  | binary left operator right ihl ihr =>
    obtain ⟨hleft, hmem, ⟨s, hs, hoperator⟩, hright⟩ := h
    obtain ⟨ls, hls⟩ := ihl hleft
    obtain ⟨rs, hrs⟩ := ihr hright
    exact ⟨_, .binary hls hs hoperator hmem hrs⟩
  | reference name => exact ⟨_, spelled_reference h⟩
  | unknown => exact h.elim

theorem Writable.operand {rank : Nat} (h : e.Writable) : (e.operand rank).Writable := by
  simp only [Expr.operand]
  split
  · exact h
  · exact h

theorem Writable.normal (h : e.Writable) : e.normal.Writable := by
  induction e with
  | grouping _ _ ih => exact ih h
  | unary _ _ ih => exact ⟨h.1, h.2.1, (ih h.2.2).operand⟩
  | binary _ _ _ ihl ihr => exact ⟨(ihl h.1).operand, h.2.1, h.2.2.1, (ihr h.2.2.2).operand⟩
  | literal | reference | unknown => exact h

end Expr

end LoxSyntax
