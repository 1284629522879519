import LoxSyntax.Proofs.Scan.MaximalMunch

/-! # Line numbers of a scan

The line of a place in a text is one more than the number of newlines before it (`Text.lineAt`). A
scan counts lines at two points of its loop and within strings, and still each token has the line of
the place at which it ends, and each diagnostic that of the character or of the end of the text
(`scanSource_lineNumbers`). The places are those of the segments of the one division of the text
(`Segment.placed`). -/

namespace LoxSyntax

/-- The line of a place: each newline before the place begins another line. -/
def Text.lineAt (source : List Char) (place : Nat) : Nat := 1 + (source.take place).count '\n'

namespace Segment

/-- A segment with the place at which it begins. -/
structure Placed where
  segment : Segment
  start : Nat

/-- The place after the segment. -/
def Placed.stop (p : Placed) : Nat := p.start + p.segment.text.length

/-- The segments with their places, if the first begins at the place. -/
def placed (start : Nat) : List Segment → List Placed
  | [] => []
  | s :: segments => ⟨s, start⟩ :: placed (start + s.text.length) segments

/-- The token is the segment at its place, on the line on which the segment ends. -/
structure Placed.IsToken (source : List Char) (p : Placed) (t : Token) : Prop where
  segment_matches : p.segment.Matches t
  lexeme : source.extract p.start p.stop = t.lexeme.toList
  line : t.line = Text.lineAt source p.stop

/-- The diagnostic is that of the segment at its place: of a character, on the line of that
character, or of a string that is not closed, on the line on which the text ends. -/
inductive Placed.IsDiagnostic (source : List Char) (p : Placed) : Diagnostic → Prop
  | unexpected {c} : p.segment = ⟨.unexpected, [c]⟩ → source[p.start]? = some c →
      IsDiagnostic source p ⟨Text.lineAt source p.start, "Unexpected character.", ""⟩
  | unterminated : p.segment = ⟨.unterminated, source.drop p.start⟩ →
      IsDiagnostic source p ⟨Text.lineAt source source.length, "Unterminated string.", ""⟩

end Segment

section Lines

variable {source : List Char} {place place' : Nat} {c : Char}

namespace Text

theorem one_le_lineAt : 1 ≤ lineAt source place := Nat.le_add_right ..

theorem lineAt_mono (h : place ≤ place') : lineAt source place ≤ lineAt source place' := by
  have htake : source.take place <+: source.take place' := List.take_prefix_take_left h
  exact Nat.add_le_add_left (htake.sublist.count_le '\n') 1

/-- No place is behind the last line. -/
theorem lineAt_le_last (source : List Char) (place : Nat) :
    lineAt source place ≤ lineAt source source.length := by
  rw [lineAt, lineAt, List.take_length]
  exact Nat.add_le_add_left ((List.take_sublist place source).count_le '\n') 1

/-- Another line begins after a newline and after no other character. -/
theorem lineAt_succ (h : source[place]? = some c) :
    lineAt source (place + 1) = lineAt source place + if c = '\n' then 1 else 0 := by
  rw [lineAt, lineAt, List.take_add_one, h, Option.toList_some, List.count_append, Nat.add_assoc,
    List.count_singleton]
  simp

theorem lineAt_add {text rest : List Char} (h : source.drop place = text ++ rest) :
    lineAt source (place + text.length) = lineAt source place + text.count '\n' := by
  rw [lineAt, lineAt, List.take_add, h, List.take_left, List.count_append, Nat.add_assoc]

end Text

end Lines

namespace Segment

variable {source : List Char} {segments : List Segment} {start : Nat} {p : Placed}

/-! ## Places -/

theorem cut_of_mem_placed (h : Divides (source.drop start) segments) (hp : p ∈ placed start segments) :
    Cut (source.drop p.start) p.segment := by
  generalize hsource : source.drop start = rest at h
  induction h generalizing start with
  | nil => cases hp
  | @cons _ segment more _ hcut hrest _ ih =>
    rcases List.mem_cons.1 hp with rfl | hp
    · exact hsource ▸ hcut
    · refine ih hp ?_
      rw [← List.drop_drop, hsource, hrest, List.drop_left]

/-- The places come one after the other. -/
theorem pairwise_placed (start : Nat) (segments : List Segment) :
    (placed start segments).Pairwise (·.stop ≤ ·.stop) ∧
      ∀ p ∈ placed start segments, start ≤ p.stop := by
  induction segments generalizing start with
  | nil => exact ⟨.nil, by simp [placed]⟩
  | cons s segments ih =>
    obtain ⟨hpairwise, hle⟩ := ih (start + s.text.length)
    refine ⟨.cons hle hpairwise, List.forall_mem_cons.2 ⟨Nat.le_add_right .., fun p hp => ?_⟩⟩
    exact Nat.le_trans (Nat.le_add_right ..) (hle p hp)

theorem placed_append (start : Nat) (before after : List Segment) :
    placed start (before ++ after) =
      placed start before ++ placed (start + (before.flatMap text).length) after := by
  induction before generalizing start with
  | nil => rfl
  | cons s before ih =>
    simp only [List.cons_append, placed, ih, List.flatMap_cons, List.length_append, Nat.add_assoc]

/-- What is found in segments is found at their places, on the lines on which they end. -/
theorem collect_eq_filterMap {α : Type} (find? : Nat → Segment → Option α)
    (h : segments.flatMap text <+: source.drop start) :
    collect find? (Text.lineAt source start) segments =
      (placed start segments).filterMap fun p => find? (Text.lineAt source p.stop) p.segment := by
  induction segments generalizing start with
  | nil => rfl
  | cons s segments ih =>
    obtain ⟨rest, hrest⟩ := h
    rw [List.flatMap_cons, List.append_assoc] at hrest
    have hline : Text.lineAt source (start + s.text.length) =
        Text.lineAt source start + s.newlines := Text.lineAt_add hrest.symm
    have hprefix : segments.flatMap text <+: source.drop (start + s.text.length) := by
      rw [← List.drop_drop, ← hrest, List.drop_left]
      exact List.prefix_append ..
    rw [collect, ← hline, ih hprefix, placed, List.filterMap_cons]
    cases hfind : find? (Text.lineAt source (start + s.text.length)) s with
    | none => simp [Placed.stop, hfind]
    | some a => simp [Placed.stop, hfind]

/-! ## Tokens and diagnostics at their places -/

theorem forall₂_filterMap {α β : Type} {find? : α → Option β} {found : α → Bool}
    {R : α → β → Prop} {as : List α}
    (hsome : ∀ a ∈ as, found a = true → ∃ b, find? a = some b ∧ R a b)
    (hnone : ∀ a ∈ as, found a = false → find? a = none) :
    List.Forall₂ R (as.filter found) (as.filterMap find?) := by
  induction as with
  | nil => exact .nil
  | cons a as ih =>
    obtain ⟨hfirst, hsome⟩ := List.forall_mem_cons.1 hsome
    obtain ⟨hfirst', hnone⟩ := List.forall_mem_cons.1 hnone
    cases hfound : found a with
    | true =>
      obtain ⟨b, hb, hR⟩ := hfirst hfound
      rw [List.filter_cons_of_pos hfound, List.filterMap_cons_some hb]
      exact .cons hR (ih hsome hnone)
    | false =>
      rw [List.filter_cons_of_neg (by simp [hfound]), List.filterMap_cons_none (hfirst' hfound)]
      exact ih hsome hnone

theorem line_of_token? {n : Nat} {s : Segment} {t : Token} (h : s.token? n = some t) :
    t.line = n := by
  obtain ⟨kind, -, rfl⟩ := Option.map_eq_some_iff.1 h
  rfl

theorem line_of_diagnostic? {n : Nat} {s : Segment} {d : Diagnostic} (h : s.diagnostic? n = some d) :
    d.line = n := by
  obtain ⟨problem, -, rfl⟩ := Option.map_eq_some_iff.1 h
  rfl

theorem Cut.extract_eq (h : Cut (source.drop p.start) p.segment) :
    source.extract p.start p.stop = p.segment.text := by
  obtain ⟨rest, hrest⟩ := h.text_prefix
  rw [List.extract_eq_take_drop, Placed.stop, Nat.add_sub_cancel_left, ← hrest, List.take_left]

theorem Cut.exists_isToken (h : Cut (source.drop p.start) p.segment) (hs : p.segment.isToken) :
    ∃ t, p.segment.token? (Text.lineAt source p.stop) = some t ∧ p.IsToken source t := by
  obtain ⟨t, ht, hmatches⟩ := h.exists_token hs (Text.lineAt source p.stop)
  refine ⟨t, ht, hmatches, ?_, line_of_token? ht⟩
  rw [h.extract_eq, hmatches.lexeme, String.toList_ofList]

theorem Cut.ne_newline {c : Char} {cs : List Char} (h : Cut cs ⟨.unexpected, [c]⟩) : c ≠ '\n' := by
  rintro rfl
  cases h with
  | unexpected hnone => exact hnone _ _ .newline ⟨_, rfl⟩

theorem Cut.exists_isDiagnostic (h : Cut (source.drop p.start) p.segment)
    (hs : p.segment.problem?.isSome) :
    ∃ d, p.segment.diagnostic? (Text.lineAt source p.stop) = some d ∧ p.IsDiagnostic source d := by
  obtain ⟨⟨sort, text⟩, start⟩ := p
  generalize hrest : source.drop start = rest at h
  cases h with
  | lexeme => cases hs
  | @unterminated rest hnone =>
    have hlength : start + ('"' :: rest).length = source.length := by
      rw [← hrest, List.length_drop]
      have := List.length_pos_iff.2 (show source.drop start ≠ [] by simp [hrest])
      rw [List.length_drop] at this
      omega
    refine ⟨_, rfl, ?_⟩
    simp only [Placed.stop, hlength]
    exact .unterminated (by rw [hrest])
  | @unexpected c rest hnone hquote =>
    have hget : source[start]? = some c := by
      rw [← List.head?_drop, hrest]
      rfl
    have hline : Text.lineAt source (start + 1) = Text.lineAt source start := by
      rw [Text.lineAt_succ hget, if_neg (Cut.unexpected hnone hquote).ne_newline, Nat.add_zero]
    refine ⟨_, rfl, ?_⟩
    simp only [Placed.stop, List.length_singleton, hline]
    exact .unexpected rfl hget

/-! ## A whole scan -/

/-- The lines of a list of findings go up, from the first line to the last of the text. -/
structure Ascending (last : Nat) (lines : List Int) : Prop where
  pairwise : lines.Pairwise (· ≤ ·)
  within : ∀ line ∈ lines, 1 ≤ line ∧ line ≤ last

theorem ascending_collect {α : Type} {find? : Nat → Segment → Option α} {line : α → Int}
    (hline : ∀ n s a, find? n s = some a → line a = n) (h : Divides source segments) :
    Ascending (Text.lineAt source source.length) ((collect find? 1 segments).map line) := by
  have hsource : segments.flatMap text <+: source.drop 0 := h.flatMap_text ▸ List.prefix_rfl
  have hcollect : collect find? 1 segments = _ := collect_eq_filterMap find? hsource
  rw [hcollect]
  refine ⟨?_, ?_⟩
  · rw [List.pairwise_map]
    refine (pairwise_placed 0 segments).1.filterMap _ fun p q hle a ha b hb => ?_
    rw [hline _ _ _ ha, hline _ _ _ hb]
    exact Int.ofNat_le.2 (Text.lineAt_mono hle)
  · intro n hn
    obtain ⟨a, ha, rfl⟩ := List.mem_map.1 hn
    obtain ⟨p, hp, ha⟩ := List.mem_filterMap.1 ha
    rw [hline _ _ _ ha]
    exact ⟨Int.ofNat_le.2 Text.one_le_lineAt, Int.ofNat_le.2 (Text.lineAt_le_last source p.stop)⟩

/-- The tokens of the first of the segments that divide the text from a place on. -/
theorem forall₂_isToken_placed {more : List Segment}
    (h : Divides (source.drop start) (segments ++ more)) :
    List.Forall₂ (Placed.IsToken source) ((placed start segments).filter (·.segment.isToken))
      (tokens (Text.lineAt source start) segments) := by
  have hprefix : segments.flatMap text <+: source.drop start := by
    rw [← h.flatMap_text, List.flatMap_append]
    exact List.prefix_append ..
  rw [tokens, collect_eq_filterMap token? hprefix]
  refine forall₂_filterMap (fun p hp hs => ?_) fun p _ hs => token?_eq_none hs _
  have hmem : p ∈ placed start (segments ++ more) := placed_append .. ▸ List.mem_append_left _ hp
  exact (cut_of_mem_placed h hmem).exists_isToken hs

theorem forall₂_isToken (h : Divides source segments) :
    List.Forall₂ (Placed.IsToken source) ((placed 0 segments).filter (·.segment.isToken))
      (tokens 1 segments) := by
  have hall : Divides (source.drop 0) (segments ++ []) := by rwa [List.append_nil]
  exact forall₂_isToken_placed hall

theorem forall₂_isDiagnostic (h : Divides source segments) :
    List.Forall₂ (Placed.IsDiagnostic source)
      ((placed 0 segments).filter (·.segment.problem?.isSome)) (diagnostics 1 segments) := by
  have hdrop : Divides (source.drop 0) segments := h
  have hprefix : segments.flatMap text <+: source.drop 0 := h.flatMap_text ▸ List.prefix_rfl
  have hcollect : diagnostics 1 segments = _ := collect_eq_filterMap diagnostic? hprefix
  rw [hcollect]
  refine forall₂_filterMap (fun p hp hs => ?_) fun p _ hs => ?_
  · exact (cut_of_mem_placed hdrop hp).exists_isDiagnostic hs
  · have hnone : p.segment.problem? = none := by simpa using hs
    rw [diagnostic?, hnone, Option.map_none]

end Segment

open Segment

/-- The line numbers of a scan are exact. Each token is on the line of the place at which its segment
ends; an unexpected character is reported on its own line, and a string that is not closed on that of
the end token, which is the last line of the text. So the lines of the tokens and of the diagnostics
go up, within those of the text, and only newlines count: a return begins no line. -/
theorem scanSource_lineNumbers (source : String) (reporter : Reporter) :
    ∃ segments tokens diagnostics, Divides source.toList segments ∧
      scanSource source reporter =
        (.ok (tokens ++ [⟨.eof, "", .nil, Text.lineAt source.toList source.toList.length⟩]),
          reporter.reportAll diagnostics) ∧
      List.Forall₂ (Placed.IsToken source.toList)
        ((placed 0 segments).filter (·.segment.isToken)) tokens ∧
      List.Forall₂ (Placed.IsDiagnostic source.toList)
        ((placed 0 segments).filter (·.segment.problem?.isSome)) diagnostics ∧
      Ascending (Text.lineAt source.toList source.toList.length) (tokens.map Token.line) ∧
      Ascending (Text.lineAt source.toList source.toList.length) (diagnostics.map Diagnostic.line) ∧
      ∀ place c, source.toList[place]? = some c →
        Text.lineAt source.toList (place + 1) =
          Text.lineAt source.toList place + if c = '\n' then 1 else 0 := by
  obtain ⟨segments, h⟩ := exists_divides source.toList
  have hend : Token.ending source =
      ⟨.eof, "", .nil, Text.lineAt source.toList source.toList.length⟩ := by
    rw [Token.ending, Text.lineAt, List.take_length]
  refine ⟨segments, tokens 1 segments, diagnostics 1 segments, h, ?_, forall₂_isToken h,
    forall₂_isDiagnostic h, ascending_collect (fun _ _ _ => line_of_token?) h,
    ascending_collect (fun _ _ _ => line_of_diagnostic?) h, fun _ _ => Text.lineAt_succ⟩
  rw [← hend]
  exact scanSource_eq h reporter

end LoxSyntax
