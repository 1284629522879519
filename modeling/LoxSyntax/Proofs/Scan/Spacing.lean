import LoxSyntax.Proofs.Lexical.Lookahead
import LoxSyntax.Proofs.Scan.MaximalMunch

/-! # Tokens with single spaces between them

A text of token lexemes with a space between any two of them is divided into those lexemes and the
spaces (`Segment.divides_spaced`): a space goes on no lexeme of a token class, so each of them is cut whole.
Its scan finds their tokens and reports nothing (`scanSource_spaced`). -/

namespace LoxSyntax

namespace Segment

def space : Segment := ⟨.lexeme .blank, [' ']⟩

/-- The segment is a lexeme of a token class. -/
inductive IsTokenLexeme : Segment → Prop
  | mk {cls text} : Lexeme cls text → cls.isToken → IsTokenLexeme ⟨.lexeme cls, text⟩

variable {s : Segment} {cls : LexicalClass} {text rest : List Char} {segments : List Segment}

/-- The text begins with a space or a newline, unless it is empty. -/
def GapAhead (rest : List Char) : Prop := ∀ d ∈ rest.head?, d = ' ' ∨ d = '\n'

/-- A lexeme of a token class is cut whole before a space, a newline or the end. -/
theorem Cut.of_gap (h : Lexeme cls text) (hcls : cls.isToken) (hrest : GapAhead rest) :
    Cut (text ++ rest) ⟨.lexeme cls, text⟩ := by
  have hgap : ∀ d ∈ rest.head?, Character.isGap d := by
    intro d hd
    rcases hrest d hd with rfl | rfl
    · rfl
    · rfl
  refine ((StandsBefore.of_lexeme h).exchange (.of_gap hgap) (fun hcomment => ?_) ?_).cut
  · obtain rfl : cls = .comment := by simpa using hcomment
    cases hcls
  · simp

theorem IsTokenLexeme.cut (h : s.IsTokenLexeme) (hrest : GapAhead rest) :
    Cut (s.text ++ rest) s := by
  obtain ⟨h, hcls⟩ := h
  exact .of_gap h hcls hrest

theorem IsTokenLexeme.isToken (h : s.IsTokenLexeme) : s.isToken := by
  obtain ⟨-, hcls⟩ := h
  exact hcls

theorem IsTokenLexeme.problem?_eq_none (h : s.IsTokenLexeme) : s.problem? = none := by
  cases h
  rfl

/-- The texts of the segments with single spaces between them. -/
def spaced (segments : List Segment) : List Char := [' '].intercalate (segments.map Segment.text)

theorem divides_spaced (h : ∀ s ∈ segments, s.IsTokenLexeme) :
    Divides (spaced segments) (segments.intersperse space) := by
  induction segments with
  | nil => exact .nil
  | cons s segments ih =>
    obtain ⟨hs, hsegments⟩ := List.forall_mem_cons.1 h
    cases segments with
    | nil =>
      have hcut : Cut (s.text ++ []) s := hs.cut (by simp [GapAhead])
      rw [spaced, List.map_singleton, List.intercalate_singleton]
      exact .cons (by simpa using hcut) (by simp) .nil
    | cons s' segments =>
      have hspaced : spaced (s :: s' :: segments) = s.text ++ ' ' :: spaced (s' :: segments) := by
        simp [spaced, List.intercalate_cons_cons]
      rw [hspaced]
      exact .cons (hs.cut (by simp [GapAhead])) rfl (.cons (.blank rfl) rfl (ih hsegments))

theorem filter_isToken_spaced (h : ∀ s ∈ segments, s.IsTokenLexeme) :
    (segments.intersperse space).filter isToken = segments := by
  induction segments with
  | nil => rfl
  | cons s segments ih =>
    obtain ⟨hs, hsegments⟩ := List.forall_mem_cons.1 h
    cases segments with
    | nil => exact List.filter_cons_of_pos hs.isToken
    | cons s' segments =>
      rw [List.intersperse_cons_cons, List.filter_cons_of_pos hs.isToken,
        List.filter_cons_of_neg Bool.false_ne_true, ih hsegments]

theorem diagnostics_eq_nil (h : ∀ s ∈ segments, s.problem? = none) (line : Nat) :
    diagnostics line segments = [] := by
  induction segments generalizing line with
  | nil => rfl
  | cons s segments ih =>
    obtain ⟨hs, hsegments⟩ := List.forall_mem_cons.1 h
    rw [diagnostics, collect, ← diagnostics, ih hsegments]
    simp [diagnostic?, hs]

theorem problem?_spaced (h : ∀ s ∈ segments, s.IsTokenLexeme) :
    ∀ s ∈ segments.intersperse space, s.problem? = none := by
  induction segments with
  | nil => simp
  | cons s segments ih =>
    obtain ⟨hs, hsegments⟩ := List.forall_mem_cons.1 h
    cases segments with
    | nil => simpa using hs.problem?_eq_none
    | cons s' segments =>
      exact List.forall_mem_cons.2
        ⟨hs.problem?_eq_none, List.forall_mem_cons.2 ⟨rfl, ih hsegments⟩⟩

end Segment

/-- The scan of lexemes with single spaces between them finds their tokens and reports nothing. -/
theorem scanSource_spaced {segments : List Segment} (h : ∀ s ∈ segments, s.IsTokenLexeme)
    (reporter : Reporter) :
    ∃ tokens ending, scanSource (.ofList (Segment.spaced segments)) reporter =
        (.ok (tokens ++ [ending]), reporter) ∧
      List.Forall₂ Segment.Matches segments tokens ∧ ending.isEnd = true := by
  have hdivides := Segment.divides_spaced h
  have htokens := hdivides.forall₂_tokens 1
  rw [Segment.filter_isToken_spaced h] at htokens
  refine ⟨_, .ending (.ofList (Segment.spaced segments)), ?_, htokens, rfl⟩
  rw [scanSource_eq (by rwa [String.toList_ofList]),
    Segment.diagnostics_eq_nil (Segment.problem?_spaced h)]
  simp

end LoxSyntax
