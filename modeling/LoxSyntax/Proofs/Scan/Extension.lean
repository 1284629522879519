import LoxSyntax.Proofs.Lexical.Lookahead
import LoxSyntax.Proofs.Scan.LineNumbers

/-! # Texts that go on

A scan looks at no more than two characters after a segment, so a segment stays cut when the text goes
on, if more than a point follows it (`Segment.StandsBefore.append_right`). The tokens that end two
characters before the end of a text are the first tokens of any longer text, and the unexpected
characters of a text are the first of any longer text (`scanSource_append`). A string or a comment
that is open at the end may take in all that is added. -/

namespace LoxSyntax

variable {source more rest : List Char} {s : Segment} {segments segments' before after : List Segment}

namespace Segment

theorem StandsBefore.append_right (h : StandsBefore s rest) (hne : rest ≠ []) (hpoint : rest ≠ ['.'])
    (more : List Char) : StandsBefore s (rest ++ more) := by
  refine h.exchange (.append_right hne hpoint more) (fun hcomment d hd => ?_) fun _ => hne
  obtain ⟨c, rest, rfl⟩ := List.exists_cons_of_ne_nil hne
  exact h.atLineEnd hcomment d hd

/-! ## Segments that end two characters before the end -/

/-- The segments that end early enough come before those that do not. -/
theorem exists_split (last start : Nat) (segments : List Segment) :
    ∃ before after, segments = before ++ after ∧
      (before = [] ∨ start + (before.flatMap text).length + 2 ≤ last) ∧
      (∀ p ∈ placed start before, p.stop + 2 ≤ last) ∧
      ∀ p ∈ placed (start + (before.flatMap text).length) after, last < p.stop + 2 := by
  induction segments generalizing start with
  | nil => exact ⟨[], [], rfl, .inl rfl, by simp [placed], by simp [placed]⟩
  | cons s segments ih =>
    by_cases hs : start + s.text.length + 2 ≤ last
    · obtain ⟨before, after, rfl, hlast, hbefore, hafter⟩ := ih (start + s.text.length)
      refine ⟨s :: before, after, rfl, .inr ?_, List.forall_mem_cons.2 ⟨hs, hbefore⟩, ?_⟩
      · rcases hlast with rfl | hlast
        · simpa using hs
        · simpa [Nat.add_assoc] using hlast
      · simpa [Nat.add_assoc] using hafter
    · refine ⟨[], s :: segments, rfl, .inl rfl, by simp [placed], ?_⟩
      refine List.forall_mem_cons.2 ⟨Nat.not_le.1 hs, fun p hp => ?_⟩
      have hle : start + s.text.length ≤ p.stop := (pairwise_placed _ segments).2 p hp
      omega

theorem filter_and_eq_filter {α : Type} {found early : α → Bool} {as : List α}
    (h : ∀ a ∈ as, early a = true) : as.filter (fun a => found a && early a) = as.filter found :=
  List.filter_congr fun a ha => by rw [h a ha, Bool.and_true]

theorem filter_and_eq_nil {α : Type} {found early : α → Bool} {as : List α}
    (h : ∀ a ∈ as, early a = false) : as.filter (fun a => found a && early a) = [] :=
  List.filter_eq_nil_iff.2 fun a ha => by simp [h a ha]

/-! ## Unexpected characters -/

theorem filter_unexpected_eq_nil (h : ∀ s ∈ segments, s.problem? ≠ some .unexpectedCharacter)
    (line : Nat) :
    (diagnostics line segments).filter (·.message = "Unexpected character.") = [] := by
  refine List.filter_eq_nil_iff.2 fun d hd => ?_
  induction segments generalizing line with
  | nil => cases hd
  | cons s segments ih =>
    obtain ⟨hs, hsegments⟩ := List.forall_mem_cons.1 h
    rcases List.mem_append.1 hd with hd | hd
    · obtain ⟨problem, hproblem, rfl⟩ := Option.map_eq_some_iff.1 (Option.mem_toList.1 hd)
      cases problem with
      | unexpectedCharacter => exact absurd hproblem hs
      | unterminatedString => exact of_decide_eq_false rfl
    · exact ih hsegments _ hd

end Segment

open Segment

namespace Divides

/-- Segments after which there are two characters more are the first of any longer text. -/
theorem exists_append (h : Divides source (before ++ after))
    (hlook : before = [] ∨ 2 ≤ (after.flatMap Segment.text).length) (more : List Char) :
    ∃ after', Divides (source ++ more) (before ++ after') := by
  rcases hlook with rfl | hlook
  · exact exists_divides _
  · obtain ⟨after', h'⟩ := exists_divides (after.flatMap Segment.text ++ more)
    have hsource : source = before.flatMap Segment.text ++ after.flatMap Segment.text := by
      rw [← h.flatMap_text, List.flatMap_append]
    have hne : after.flatMap Segment.text ≠ [] := List.ne_nil_of_length_pos (by omega)
    have hpoint : after.flatMap Segment.text ≠ ['.'] := fun heq => by simp [heq] at hlook
    have hline : AtLineEnd (after.flatMap Segment.text) →
        AtLineEnd (after.flatMap Segment.text ++ more) := by
      obtain ⟨c, rest, hrest⟩ := List.exists_cons_of_ne_nil hne
      rw [hrest]
      exact id
    refine ⟨after', ?_⟩
    rw [hsource, List.append_assoc]
    exact h.exchange h' (.append_right hne hpoint more) hline fun _ _ _ => hne

/-- The segments of a text that end two characters before its end are the first of any longer text. -/
theorem exists_settled (h : Divides source segments) (more : List Char) :
    ∃ before after after', segments = before ++ after ∧ Divides (source ++ more) (before ++ after') ∧
      (∀ p ∈ placed 0 before, p.stop + 2 ≤ source.length) ∧
      ∀ p ∈ placed (before.flatMap Segment.text).length after, source.length < p.stop + 2 := by
  obtain ⟨before, after, rfl, hlast, hbefore, hafter⟩ := exists_split source.length 0 segments
  rw [Nat.zero_add] at hlast hafter
  have hlength : source.length =
      (before.flatMap Segment.text).length + (after.flatMap Segment.text).length := by
    rw [← h.flatMap_text, List.flatMap_append, List.length_append]
  have hlook : before = [] ∨ 2 ≤ (after.flatMap Segment.text).length :=
    hlast.imp_right fun hlast => by omega
  obtain ⟨after', h'⟩ := h.exists_append hlook more
  exact ⟨before, after, after', rfl, h', hbefore, hafter⟩

/-- The tokens of the segments that divide what others leave of a text. -/
theorem forall₂_isToken_rest (h : Divides source (before ++ after)) :
    List.Forall₂ (Placed.IsToken source)
      ((placed (before.flatMap Segment.text).length after).filter (·.segment.isToken))
      (tokens (1 + (before.flatMap Segment.text).count '\n') after) := by
  have hsource : source = before.flatMap Segment.text ++ after.flatMap Segment.text := by
    rw [← h.flatMap_text, List.flatMap_append]
  have hrest : Divides (source.drop (before.flatMap Segment.text).length) (after ++ []) := by
    rw [hsource, List.drop_left, List.append_nil]
    exact h.of_append
  have hline : Text.lineAt source (before.flatMap Segment.text).length =
      1 + (before.flatMap Segment.text).count '\n' := by
    rw [Text.lineAt, hsource, List.take_left]
  rw [← hline]
  exact forall₂_isToken_placed hrest

theorem exists_cons_of_standsBefore (h : Divides (s.text ++ rest) segments)
    (hs : s.StandsBefore rest) : ∃ segments', segments = s :: segments' ∧ Divides rest segments' := by
  obtain ⟨segments', h'⟩ := exists_divides rest
  exact ⟨segments', h.unique (cons_iff.2 ⟨rest, rfl, hs, h'⟩), h'⟩

/-- Nothing unexpected is left where a longer text may be divided differently. -/
theorem problem?_of_not_standsBefore (hs : s.StandsBefore rest) (h : Divides rest segments)
    (hmore : ¬ s.StandsBefore (rest ++ more)) :
    ∀ s' ∈ s :: segments, s'.problem? ≠ some .unexpectedCharacter := by
  have hsegments : segments = [] ∨ segments = [⟨.lexeme .punctuation, ['.']⟩] := by
    by_cases hne : rest = []
    · subst hne
      exact .inl h.of_nil
    by_cases hpoint : rest = ['.']
    · subst hpoint
      exact .inr (h.unique (.cons (.punctuation rfl) rfl .nil))
    · exact absurd (hs.append_right hne hpoint more) hmore
  have hproblem : s.problem? ≠ some .unexpectedCharacter := by
    intro hproblem
    cases hs with
    | unexpected hopening => exact hmore (.unexpected hopening)
    | _ => cases hproblem
  refine List.forall_mem_cons.2 ⟨hproblem, ?_⟩
  rcases hsegments with rfl | rfl
  · simp
  · simp [problem?]

/-- The unexpected characters of a text are the first of any longer text. -/
theorem filter_unexpected_prefix (h : Divides source segments) (h' : Divides (source ++ more) segments')
    (line : Nat) :
    (diagnostics line segments).filter (·.message = "Unexpected character.") <+:
      (diagnostics line segments').filter (·.message = "Unexpected character.") := by
  induction segments generalizing source segments' line with
  | nil => exact List.nil_prefix
  | cons s segments ih =>
    obtain ⟨rest, rfl, hs, hrest⟩ := cons_iff.1 h
    by_cases hmore : s.StandsBefore (rest ++ more)
    · rw [List.append_assoc] at h'
      obtain ⟨segments', rfl, hrest'⟩ := h'.exists_cons_of_standsBefore hmore
      rw [diagnostics, collect, collect, ← diagnostics, List.filter_append, List.filter_append,
        List.prefix_append_right_inj]
      exact ih hrest hrest' _
    · rw [filter_unexpected_eq_nil (problem?_of_not_standsBefore hs hrest hmore)]
      exact List.nil_prefix

end Divides

/-- A scan looks at no more than two characters after a token. Of the tokens of a text other than the
end token, those that end at least two characters before the end of the text come first, and they are
the first tokens of any text that goes on from it, on the same lines; the unexpected characters of
the text are the first of that text. -/
theorem scanSource_append (source more : String) (reporter : Reporter) :
    ∃ (segments : List Segment) (settled pending others : List Token)
      (diagnostics diagnostics' : List Diagnostic),
      Divides source.toList segments ∧
      scanSource source reporter =
        (.ok (settled ++ pending ++ [.ending source]),
          reporter.reportAll diagnostics) ∧
      List.Forall₂ (Placed.IsToken source.toList)
        ((placed 0 segments).filter fun p =>
          p.segment.isToken && p.stop + 2 ≤ source.toList.length) settled ∧
      List.Forall₂ (Placed.IsToken source.toList)
        ((placed 0 segments).filter fun p =>
          p.segment.isToken && source.toList.length < p.stop + 2) pending ∧
      scanSource (source ++ more) reporter =
        (.ok (settled ++ others ++ [.ending (source ++ more)]),
          reporter.reportAll diagnostics') ∧
      diagnostics.filter (·.message = "Unexpected character.") <+:
        diagnostics'.filter (·.message = "Unexpected character.") := by
  obtain ⟨segments, h⟩ := exists_divides source.toList
  obtain ⟨before, after, after', rfl, h', hbefore, hafter⟩ := h.exists_settled more.toList
  have hall : Divides (source.toList.drop 0) (before ++ after) := h
  have hmore : Divides (source ++ more).toList (before ++ after') := by rwa [String.toList_append]
  let line := 1 + (before.flatMap Segment.text).count '\n'
  refine ⟨before ++ after, tokens 1 before, tokens line after, tokens line after',
    diagnostics 1 (before ++ after), diagnostics 1 (before ++ after'), h, ?_, ?_, ?_, ?_,
    h.filter_unexpected_prefix h' 1⟩
  · rw [scanSource_eq h, tokens, collect_append]
  · rw [placed_append, List.filter_append, filter_and_eq_filter (by simpa using hbefore),
      filter_and_eq_nil (by simpa using hafter), List.append_nil]
    exact forall₂_isToken_placed hall
  · rw [placed_append, List.filter_append, filter_and_eq_nil (by simpa using hbefore),
      filter_and_eq_filter (by simpa using hafter), List.nil_append, Nat.zero_add]
    exact h.forall₂_isToken_rest
  · rw [scanSource_eq hmore, tokens, collect_append]

end LoxSyntax
