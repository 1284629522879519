import LoxSyntax.Proofs.Lexical.Lookahead
import LoxSyntax.Proofs.Scan.Moments
import LoxSyntax.Proofs.Scan.Spacing

/-! # What does not matter to a scan

Blanks, comments and unexpected characters are no tokens, and no token goes on in them. So a scan
finds the same when blanks are put between two segments (`Divides.insert_blanks`) or a comment is
left out (`Divides.delete_comment`), and the same but for the reports when each unexpected character
gives way to a space (`Divides.spaceUnexpected`). A comment and a string that is not closed take in
the blanks that are put after them. The segments of the division are the lexemes of the rounds of
the scan (`Scan.lexeme_rounds`). -/

namespace LoxSyntax

namespace Segment

variable {s s' : Segment} {source rest blanks : List Char}
  {segments segments' segments'' before after : List Segment}

/-! ## The same findings -/

/-- The same is found in both lists of segments, from any line on, and they end on the same line. -/
structure SameFindings (segments segments' : List Segment) : Prop where
  tokens_eq : ∀ line, tokens line segments' = tokens line segments
  diagnostics_eq : ∀ line, diagnostics line segments' = diagnostics line segments
  newlines_eq : (segments'.flatMap text).count '\n' = (segments.flatMap text).count '\n'

namespace SameFindings

theorem refl (segments : List Segment) : SameFindings segments segments :=
  ⟨fun _ => rfl, fun _ => rfl, rfl⟩

theorem symm (h : SameFindings segments segments') : SameFindings segments' segments :=
  ⟨fun line => (h.tokens_eq line).symm, fun line => (h.diagnostics_eq line).symm,
    h.newlines_eq.symm⟩

theorem trans (h : SameFindings segments segments') (h' : SameFindings segments' segments'') :
    SameFindings segments segments'' :=
  ⟨fun line => (h'.tokens_eq line).trans (h.tokens_eq line),
    fun line => (h'.diagnostics_eq line).trans (h.diagnostics_eq line),
    h'.newlines_eq.trans h.newlines_eq⟩

theorem append_left (before : List Segment) (h : SameFindings segments segments') :
    SameFindings (before ++ segments) (before ++ segments') := by
  refine ⟨fun line => ?_, fun line => ?_, ?_⟩
  · rw [tokens, collect_append, collect_append, ← tokens, h.tokens_eq]
  · rw [diagnostics, collect_append, collect_append, ← diagnostics, h.diagnostics_eq]
  · rw [List.flatMap_append, List.flatMap_append, List.count_append, List.count_append,
      h.newlines_eq]

/-- One segment that is no token for another with the same problem, if there is one. -/
theorem replace (hs : s.isToken = false) (hs' : s'.isToken = false)
    (hproblem : s'.problem? = s.problem?) (hnewlines : s'.newlines = s.newlines)
    (segments : List Segment) : SameFindings (s :: segments) (s' :: segments) := by
  refine ⟨fun line => ?_, fun line => ?_, ?_⟩
  · rw [tokens, collect, collect, hnewlines, token?_eq_none hs, token?_eq_none hs']
  · rw [diagnostics, collect, collect, hnewlines, diagnostic?, diagnostic?, hproblem]
  · rw [List.flatMap_cons, List.flatMap_cons, List.count_append, List.count_append]
    exact congrArg (· + _) hnewlines

/-- One segment more in which nothing is found. -/
theorem cons (hs : s.isToken = false) (hproblem : s.problem? = none) (hnewlines : s.newlines = 0)
    (segments : List Segment) : SameFindings segments (s :: segments) := by
  refine ⟨fun line => ?_, fun line => ?_, ?_⟩
  · rw [tokens, collect, hnewlines, token?_eq_none hs]
    rfl
  · rw [diagnostics, collect, hnewlines, diagnostic?, hproblem]
    rfl
  · rw [List.flatMap_cons, List.count_append, show s.text.count '\n' = 0 from hnewlines,
      Nat.zero_add]

end SameFindings

/-! ## Blanks between segments -/

def blankOf (c : Char) : Segment := ⟨.lexeme .blank, [c]⟩

/-- A comment, or a string that is not closed: blanks after it belong to it. -/
def isOpen (s : Segment) : Bool := s.sort = .lexeme .comment || s.sort = .unterminated

theorem newline_not_mem_blanks (hb : ∀ c ∈ blanks, Character.isBlank c) : '\n' ∉ blanks := by
  intro hmem
  have hblank : Character.isBlank '\n' = true := hb _ hmem
  cases hblank

theorem divides_blanks (hb : ∀ c ∈ blanks, Character.isBlank c) (h : Divides rest segments) :
    Divides (blanks ++ rest) (blanks.map blankOf ++ segments) := by
  induction blanks with
  | nil => exact h
  | cons c blanks ih =>
    obtain ⟨hc, hb⟩ := List.forall_mem_cons.1 hb
    exact .cons (.blank hc) rfl (ih hb)

theorem sameFindings_blanks (hb : ∀ c ∈ blanks, Character.isBlank c) (segments : List Segment) :
    SameFindings segments (blanks.map blankOf ++ segments) := by
  induction blanks with
  | nil => exact .refl segments
  | cons c blanks ih =>
    obtain ⟨hc, hb⟩ := List.forall_mem_cons.1 hb
    have hnewlines : (blankOf c).newlines = 0 := (Lexeme.blank hc).newlines_eq_zero rfl
    exact (ih hb).trans (.cons rfl rfl hnewlines _)

theorem Exchange.of_blanks (hb : ∀ c ∈ blanks, Character.isBlank c) (rest : List Char) :
    Exchange rest (blanks ++ rest) := by
  cases blanks with
  | nil => exact ⟨fun d hd => .inl hd, id⟩
  | cons c blanks =>
    refine .of_gap fun d hd => ?_
    cases hd
    simp [Character.isGap, hb c List.mem_cons_self]

/-- A comment or a string that is not closed goes on in blanks. -/
theorem StandsBefore.append_blanks (h : StandsBefore s rest) (hs : s.isOpen = true)
    (hb : ∀ c ∈ blanks, Character.isBlank c) :
    StandsBefore ⟨s.sort, s.text ++ blanks⟩ rest := by
  cases h with
  | comment hbody hrest =>
    refine .comment ?_ hrest
    exact fun hmem => (List.mem_append.1 hmem).elim hbody (newline_not_mem_blanks hb)
  | unterminated hbody =>
    refine .unterminated fun hmem => (List.mem_append.1 hmem).elim hbody fun hquote => ?_
    have hblank : Character.isBlank '"' = true := hb _ hquote
    cases hblank
  | _ => cases hs

/-- Every other segment stands before blanks. -/
theorem StandsBefore.before_blanks (h : StandsBefore s rest) (hs : s.isOpen = false)
    (hb : ∀ c ∈ blanks, Character.isBlank c) : StandsBefore s (blanks ++ rest) := by
  refine h.exchange (.of_blanks hb rest) (fun hsort => ?_) fun hsort => ?_
  · simp [isOpen, hsort] at hs
  · simp [isOpen, hsort] at hs

theorem isToken_eq_false_of_isOpen (hs : s.isOpen = true) : s.isToken = false := by
  obtain ⟨sort, text⟩ := s
  simp only [isOpen, Bool.or_eq_true, decide_eq_true_eq] at hs
  rcases hs with rfl | rfl
  · rfl
  · rfl

/-- Blanks after a segment belong to it or are segments of their own, and nothing else changes. -/
theorem StandsBefore.exists_divides_blanks (h : StandsBefore s rest) (hrest : Divides rest after)
    (hb : ∀ c ∈ blanks, Character.isBlank c) :
    ∃ segments, Divides (s.text ++ (blanks ++ rest)) segments ∧
      SameFindings (s :: after) segments := by
  cases hs : s.isOpen with
  | true =>
    refine ⟨⟨s.sort, s.text ++ blanks⟩ :: after, ?_, ?_⟩
    · exact Divides.cons_iff.2 ⟨rest, by rw [List.append_assoc], h.append_blanks hs hb, hrest⟩
    · have hblanks : blanks.count '\n' = 0 := List.count_eq_zero.2 (newline_not_mem_blanks hb)
      have hnewlines : Segment.newlines ⟨s.sort, s.text ++ blanks⟩ = s.newlines := by
        simp [newlines, hblanks]
      have htoken : s.isToken = false := isToken_eq_false_of_isOpen hs
      have htoken' : Segment.isToken ⟨s.sort, s.text ++ blanks⟩ = false := htoken
      exact .replace htoken htoken' rfl hnewlines after
  | false =>
    refine ⟨s :: (blanks.map blankOf ++ after), ?_, ?_⟩
    · exact Divides.cons_iff.2 ⟨_, rfl, h.before_blanks hs hb, divides_blanks hb hrest⟩
    · exact (sameFindings_blanks hb after).append_left [s]

end Segment

open Segment

namespace Divides

variable {source rest blanks : List Char} {s : Segment} {segments before after : List Segment}

theorem insert_blanks (h : Divides source (before ++ after))
    (hb : ∀ c ∈ blanks, Character.isBlank c) :
    ∃ segments, SameFindings (before ++ after) segments ∧
      Divides (before.flatMap Segment.text ++ (blanks ++ after.flatMap Segment.text)) segments := by
  rcases before.eq_nil_or_concat with rfl | ⟨init, s, rfl⟩
  · rw [List.nil_append] at h ⊢
    rw [List.flatMap_nil, List.nil_append, h.flatMap_text]
    exact ⟨blanks.map blankOf ++ after, sameFindings_blanks hb after, divides_blanks hb h⟩
  · rw [List.concat_eq_append, List.append_assoc, List.singleton_append] at h ⊢
    obtain ⟨rest, htext, hstands, hrest⟩ := cons_iff.1 h.of_append
    obtain rfl : after.flatMap Segment.text = rest := hrest.flatMap_text
    obtain ⟨segments, hsegments, hsame⟩ := hstands.exists_divides_blanks hrest hb
    obtain ⟨c, cs, htext⟩ := List.exists_cons_of_ne_nil hstands.cut.text_ne_nil
    refine ⟨init ++ segments, hsame.append_left init, ?_⟩
    have hdivides := h.exchange hsegments (.append_left s.text (.of_blanks hb _))
      (by rw [List.flatMap_cons, htext]; exact id) fun _ _ _ => by simp [htext]
    simpa using hdivides

theorem delete_comment {comment : Segment} (h : Divides source (before ++ comment :: after))
    (hcomment : comment.sort = .lexeme .comment) :
    Divides ((before ++ after).flatMap Segment.text) (before ++ after) ∧
      SameFindings (before ++ comment :: after) (before ++ after) := by
  obtain ⟨rest, -, hstands, hrest⟩ := cons_iff.1 h.of_append
  have hline : AtLineEnd rest := hstands.atLineEnd hcomment
  constructor
  · rw [List.flatMap_append, hrest.flatMap_text]
    refine h.exchange hrest (.of_atLineEnd hline) (fun _ => hline) fun _ _ _ hnil => ?_
    exact hstands.cut.text_ne_nil (List.append_eq_nil_iff.1 hnil).1
  · obtain ⟨sort, text⟩ := comment
    cases hcomment
    have hnewlines : Segment.newlines ⟨.lexeme .comment, text⟩ = 0 :=
      hstands.lexeme.newlines_eq_zero rfl
    exact (SameFindings.cons rfl rfl hnewlines after).symm.append_left before

end Divides

/-! ## Unexpected characters -/

namespace Segment

variable {s : Segment} {source rest : List Char} {segments : List Segment}

theorem collect_map {α : Type} {find? find?' : Nat → Segment → Option α} {f : Segment → Segment}
    (hnewlines : ∀ s ∈ segments, (f s).newlines = s.newlines)
    (hfind : ∀ s ∈ segments, ∀ line, find? line (f s) = find?' line s) (line : Nat) :
    collect find? line (segments.map f) = collect find?' line segments := by
  induction segments generalizing line with
  | nil => rfl
  | cons s segments ih =>
    obtain ⟨hs, hsegments⟩ := List.forall_mem_cons.1 hnewlines
    obtain ⟨hs', hsegments'⟩ := List.forall_mem_cons.1 hfind
    rw [List.map_cons, collect, collect, hs, hs', ih hsegments hsegments']

theorem collect_filter {α : Type} (find? : Nat → Segment → Option α) (p : α → Bool) (line : Nat)
    (segments : List Segment) :
    collect (fun line s => (find? line s).filter p) line segments =
      (collect find? line segments).filter p := by
  induction segments generalizing line with
  | nil => rfl
  | cons s segments ih => rw [collect, collect, ih, List.filter_append, Option.toList_filter]

theorem count_newline_map {f : Segment → Segment}
    (hnewlines : ∀ s ∈ segments, (f s).newlines = s.newlines) :
    ((segments.map f).flatMap text).count '\n' = (segments.flatMap text).count '\n' := by
  induction segments with
  | nil => rfl
  | cons s segments ih =>
    obtain ⟨hs, hsegments⟩ := List.forall_mem_cons.1 hnewlines
    rw [List.map_cons, List.flatMap_cons, List.flatMap_cons, List.count_append, List.count_append,
      ih hsegments, show (f s).text.count '\n' = s.text.count '\n' from hs]

/-- A space in the place of an unexpected character. -/
def spaceUnexpected (s : Segment) : Segment := if s.sort = .unexpected then space else s

theorem spaceUnexpected_eq_self (hs : s.sort ≠ .unexpected) : s.spaceUnexpected = s := if_neg hs

theorem spaceUnexpected_eq_space (hs : s.sort = .unexpected) : s.spaceUnexpected = space :=
  if_pos hs

theorem token?_spaceUnexpected (s : Segment) (line : Nat) :
    s.spaceUnexpected.token? line = s.token? line := by
  by_cases hs : s.sort = .unexpected
  · have htoken : s.isToken = false := by rw [isToken, hs]
    rw [spaceUnexpected_eq_space hs, token?_eq_none htoken]
    rfl
  · rw [spaceUnexpected_eq_self hs]

theorem diagnostic?_spaceUnexpected (s : Segment) (line : Nat) :
    s.spaceUnexpected.diagnostic? line =
      (s.diagnostic? line).filter (·.message ≠ "Unexpected character.") := by
  obtain ⟨sort, text⟩ := s
  cases sort with
  | lexeme | unterminated | unexpected => rfl

theorem StandsBefore.exists_unexpected (h : StandsBefore s rest) (hs : s.sort = .unexpected) :
    ∃ c, s.text = [c] ∧ c ≠ '\n' := by
  cases h with
  | @unexpected c _ hopening =>
    refine ⟨c, rfl, ?_⟩
    rintro rfl
    cases hopening
  | _ => cases hs

theorem StandsBefore.newlines_spaceUnexpected (h : StandsBefore s rest) :
    s.spaceUnexpected.newlines = s.newlines := by
  by_cases hs : s.sort = .unexpected
  · obtain ⟨c, htext, hc⟩ := h.exists_unexpected hs
    have hcount : [c].count '\n' = 0 := List.count_eq_zero.2 (by simpa using hc.symm)
    rw [spaceUnexpected_eq_space hs, newlines, newlines, htext, hcount]
    rfl
  · rw [spaceUnexpected_eq_self hs]

end Segment

namespace Divides

variable {source source' : List Char} {segments : List Segment}

theorem exchange_spaceUnexpected (h : Divides source segments) :
    Exchange source ((segments.map spaceUnexpected).flatMap Segment.text) := by
  induction segments generalizing source with
  | nil =>
    cases h
    exact ⟨fun d hd => .inl hd, id⟩
  | cons s segments ih =>
    obtain ⟨rest, rfl, -, hrest⟩ := cons_iff.1 h
    rw [List.map_cons, List.flatMap_cons]
    by_cases hs : s.sort = .unexpected
    · rw [spaceUnexpected_eq_space hs]
      refine .of_gap fun d hd => ?_
      cases hd
      rfl
    · rw [spaceUnexpected_eq_self hs]
      exact (ih hrest).append_left s.text

theorem atLineEnd_spaceUnexpected (h : Divides source segments) :
    AtLineEnd source → AtLineEnd ((segments.map spaceUnexpected).flatMap Segment.text) := by
  induction segments generalizing source with
  | nil =>
    cases h
    exact id
  | cons s segments ih =>
    obtain ⟨rest, rfl, hstands, hrest⟩ := cons_iff.1 h
    rw [List.map_cons, List.flatMap_cons]
    by_cases hs : s.sort = .unexpected
    · obtain ⟨c, htext, hc⟩ := hstands.exists_unexpected hs
      rw [htext]
      exact fun hline => absurd (hline c rfl) hc
    · rw [spaceUnexpected_eq_self hs]
      exact AtLineEnd.append (ih hrest) s.text

/-- The division of the text in which a space has taken the place of each unexpected character. -/
theorem spaceUnexpected (h : Divides source segments) :
    Divides ((segments.map spaceUnexpected).flatMap Segment.text) (segments.map spaceUnexpected) := by
  induction segments generalizing source with
  | nil => exact .nil
  | cons s segments ih =>
    obtain ⟨rest, rfl, hstands, hrest⟩ := cons_iff.1 h
    refine cons_iff.2 ⟨_, rfl, ?_, ih hrest⟩
    by_cases hs : s.sort = .unexpected
    · rw [spaceUnexpected_eq_space hs]
      exact .blank rfl
    rw [spaceUnexpected_eq_self hs]
    by_cases hnil : rest = []
    · subst hnil
      rwa [hrest.of_nil]
    · exact hstands.exchange hrest.exchange_spaceUnexpected
        (fun hcomment => hrest.atLineEnd_spaceUnexpected (hstands.atLineEnd hcomment)) fun _ => hnil

theorem newlines_spaceUnexpected (h : Divides source segments) :
    ∀ s ∈ segments, s.spaceUnexpected.newlines = s.newlines := by
  intro s hs
  obtain ⟨rest, hstands⟩ := h.exists_standsBefore_of_mem s hs
  exact hstands.newlines_spaceUnexpected

end Divides

/-! ## Scans -/

namespace Scan

variable {s : Scan} {segments : List Segment}

/-- A round takes the first segment of the division. -/
theorem round_eq_absorb {segment : Segment} (h : Divides s.after (segment :: segments)) :
    s.round = s.mark.absorb segment ∧ Divides s.round.after segments := by
  obtain ⟨rest, hsource, hstands, hrest⟩ := Divides.cons_iff.1 h
  obtain ⟨c, cs, hafter⟩ : ∃ c cs, s.after = c :: cs := by
    refine List.exists_cons_of_ne_nil fun hnil => hstands.cut.text_ne_nil ?_
    exact (List.append_eq_nil_iff.1 (hsource.symm.trans hnil)).1
  obtain ⟨segment', hcut, hstep⟩ := absorbs_scanToken (s := s.mark) rfl hafter
  obtain rfl : segment' = segment := hcut.unique (hsource ▸ hstands.cut)
  have hround : s.round = s.mark.absorb segment' := congrArg Prod.snd hstep
  have hdrop : (s.mark.absorb segment').after = rest := by
    rw [absorb, after_mark, hsource, List.drop_left]
  exact ⟨hround, by rwa [hround, hdrop]⟩

/-- The segments of the division are the lexemes of the rounds. -/
theorem lexeme_rounds {fuel : Nat} (h : Divides s.after segments) (hfuel : s.after.length ≤ fuel) :
    (rounds fuel s).map Scan.lexeme = segments.map Segment.text := by
  induction fuel generalizing s segments with
  | zero =>
    rw [List.eq_nil_of_length_eq_zero (Nat.le_zero.1 hfuel)] at h
    rw [h.of_nil]
    rfl
  | succ fuel ih =>
    cases segments with
    | nil =>
      have hafter : s.after = [] := h.flatMap_text.symm
      rw [rounds, if_pos (by simp [isAtEnd, hafter])]
      rfl
    | cons segment segments =>
      obtain ⟨hround, hrest⟩ := round_eq_absorb h
      have hne : s.after ≠ [] := fun hnil => by
        rw [hnil] at h
        cases h.of_nil
      have hlt : s.round.after.length < s.after.length := scanToken_length_lt s.mark hne
      rw [rounds, if_neg (by simp [isAtEnd, hne]), List.map_cons, List.map_cons,
        ih hrest (by omega), hround]
      rfl

end Scan

variable {source source' : String} {segments segments' : List Segment}

theorem scanSource_congr (h : Divides source.toList segments) (h' : Divides source'.toList segments')
    (hsame : SameFindings segments segments') (reporter : Reporter) :
    scanSource source' reporter = scanSource source reporter := by
  have hcount : source'.toList.count '\n' = source.toList.count '\n' := by
    rw [← h.flatMap_text, ← h'.flatMap_text, hsame.newlines_eq]
  have hending : Token.ending source' = Token.ending source := by
    rw [Token.ending, Token.ending, hcount]
  rw [scanSource_eq h, scanSource_eq h', hsame.tokens_eq, hsame.diagnostics_eq, hending]

theorem scanSource_spaceUnexpected (h : Divides source.toList segments) (reporter : Reporter) :
    scanSource (.ofList ((segments.map spaceUnexpected).flatMap Segment.text)) reporter =
      (.ok (tokens 1 segments ++ [.ending source]), reporter.reportAll
        ((diagnostics 1 segments).filter (·.message ≠ "Unexpected character."))) := by
  have htokens : tokens 1 (segments.map spaceUnexpected) = tokens 1 segments :=
    collect_map h.newlines_spaceUnexpected (fun s _ => s.token?_spaceUnexpected) 1
  have hdiagnostics : diagnostics 1 (segments.map spaceUnexpected) =
      (diagnostics 1 segments).filter (·.message ≠ "Unexpected character.") := by
    rw [diagnostics, collect_map h.newlines_spaceUnexpected fun s _ => s.diagnostic?_spaceUnexpected,
      collect_filter, ← diagnostics]
  have hending : Token.ending (.ofList ((segments.map spaceUnexpected).flatMap Segment.text)) =
      Token.ending source := by
    rw [Token.ending, Token.ending, String.toList_ofList,
      count_newline_map h.newlines_spaceUnexpected, h.flatMap_text]
  have hdivides := h.spaceUnexpected
  rw [scanSource_eq (by rwa [String.toList_ofList]), htokens, hdiagnostics, hending]

/-- Blanks, comments and unexpected characters do not matter to the tokens. The lexemes of the rounds
of a scan are the segments of the one division of its text. With a space in the place of each
unexpected character the scan finds the same tokens and reports the rest; without a comment, or with
blanks put before, between or after the segments, it is the same scan. -/
theorem scanSource_trivia (source : String) (reporter : Reporter) :
    ∃ segments, Divides source.toList segments ∧
      (Scan.rounds source.toList.length (.ofText source.toList reporter)).map Scan.lexeme =
        segments.map Segment.text ∧
      scanSource source reporter =
        (.ok (tokens 1 segments ++ [.ending source]),
          reporter.reportAll (diagnostics 1 segments)) ∧
      scanSource (.ofList ((segments.map spaceUnexpected).flatMap Segment.text)) reporter =
        (.ok (tokens 1 segments ++ [.ending source]), reporter.reportAll
          ((diagnostics 1 segments).filter (·.message ≠ "Unexpected character."))) ∧
      (∀ before comment after, segments = before ++ comment :: after →
        comment.sort = .lexeme .comment →
        scanSource (.ofList ((before ++ after).flatMap Segment.text)) reporter =
          scanSource source reporter) ∧
      ∀ before after blanks, segments = before ++ after → (∀ c ∈ blanks, Character.isBlank c) →
        scanSource
            (.ofList (before.flatMap Segment.text ++ blanks ++ after.flatMap Segment.text)) reporter =
          scanSource source reporter := by
  obtain ⟨segments, h⟩ := exists_divides source.toList
  refine ⟨segments, h, ?rounds, scanSource_eq h reporter, scanSource_spaceUnexpected h reporter,
    ?comments, ?blanks⟩
  case rounds => exact Scan.lexeme_rounds (s := .ofText source.toList reporter) h (Nat.le_refl _)
  case comments =>
    rintro before comment after rfl hcomment
    obtain ⟨h', hsame⟩ := h.delete_comment hcomment
    exact scanSource_congr h (by rwa [String.toList_ofList]) hsame reporter
  case blanks =>
    rintro before after blanks rfl hblanks
    obtain ⟨segments', hsame, h'⟩ := h.insert_blanks hblanks
    rw [List.append_assoc]
    exact scanSource_congr h (by rwa [String.toList_ofList]) hsame reporter

/-- A comment at the end may be left out, or put off with blanks. -/
theorem scanSource_trivia_commentAtEnd :
    scanSource (.ofList [';']) {} = scanSource (.ofList [';', '/', '/', 'x']) {} ∧
      scanSource (.ofList [';', ' ', '\t', '/', '/', 'x']) {} =
        scanSource (.ofList [';', '/', '/', 'x']) {} := by
  obtain ⟨segments, h, -, -, -, hcomment, hblanks⟩ :=
    scanSource_trivia (.ofList [';', '/', '/', 'x']) {}
  let semicolon : Segment := ⟨.lexeme .punctuation, [';']⟩
  let comment : Segment := ⟨.lexeme .comment, ['/', '/', 'x']⟩
  have hstands : comment.StandsBefore [] := @StandsBefore.comment ['x'] [] (by decide) (by simp)
  have hdivides : Divides [';', '/', '/', 'x'] [semicolon, comment] :=
    .cons (.punctuation rfl) rfl (.cons hstands.cut rfl .nil)
  rw [String.toList_ofList] at h
  obtain rfl := h.unique hdivides
  exact ⟨hcomment [semicolon] comment [] rfl rfl,
    hblanks [semicolon] [comment] [' ', '\t'] rfl (by simp [Character.isBlank])⟩

end LoxSyntax
