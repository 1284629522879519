import LoxSyntax.Proofs.Lexical.Meaning
import LoxSyntax.Proofs.Scan.Absorption
import LoxSyntax.Run.Source

/-! # A scan is maximal munch

A whole scan absorbs the segments of the one division of its text, one after the other
(`Scan.scanRest_eq`), so its tokens and its diagnostics are those of the division
(`scanSource_eq`). The run also shows that there is a division (`exists_divides`). -/

namespace LoxSyntax

namespace Scan

def absorbAll (segments : List Segment) (s : Scan) : Scan :=
  segments.foldl (fun s segment => s.mark.absorb segment) s

variable {s s' : Scan} {segments : List Segment}

theorem scanRest_of_nil (h : s.after = []) : s.scanRest = (.ok (), s) := by
  rw [scanRest, dif_pos h]

theorem scanRest_of_ok (h : s.after ≠ []) (hstep : s.mark.scanToken = (.ok (), s')) :
    s.scanRest = s'.scanRest := by
  rw [scanRest, dif_neg h]
  split
  · rename_i heq
    cases hstep.symm.trans heq
    rfl
  · rename_i heq
    cases hstep.symm.trans heq

theorem exists_scanRest_eq (s : Scan) :
    ∃ segments, Divides s.after segments ∧ s.scanRest = (.ok (), s.absorbAll segments) := by
  -- Each segment is cut from a shorter text than the one before.
  generalize hlength : s.after.length = n
  induction n using Nat.strongRecOn generalizing s with
  | ind n ih =>
    cases hafter : s.after with
    | nil => exact ⟨[], .nil, scanRest_of_nil hafter⟩
    | cons c rest =>
      obtain ⟨segment, hcut, hstep⟩ := absorbs_scanToken (s := s.mark) rfl hafter
      obtain ⟨more, hmore⟩ := hcut.text_prefix
      have hdrop : (s.mark.absorb segment).after = more := by
        rw [absorb, ← hmore, List.drop_left]
      have hlt : more.length < n := by
        have := List.length_pos_iff.2 hcut.text_ne_nil
        have := congrArg List.length hmore
        simp only [List.length_append, after_mark] at this
        omega
      obtain ⟨segments, hdivides, hrest⟩ := ih _ (hdrop ▸ hlt) (s.mark.absorb segment) rfl
      refine ⟨segment :: segments, ?_, ?_⟩
      · rw [← hafter]
        exact .cons hcut hmore.symm (hdrop ▸ hdivides)
      · rw [scanRest_of_ok (by simp [hafter]) hstep, hrest]
        rfl

theorem scanRest_eq (h : Divides s.after segments) :
    s.scanRest = (.ok (), s.absorbAll segments) := by
  obtain ⟨segments', hdivides, hrest⟩ := exists_scanRest_eq s
  rw [hrest, h.unique hdivides]

section Absorbed

variable (segments : List Segment) (s : Scan)

theorem line_absorbAll :
    (s.absorbAll segments).line = s.line + (segments.flatMap Segment.text).count '\n' := by
  induction segments generalizing s with
  | nil => rfl
  | cons segment segments ih =>
    rw [absorbAll, List.foldl_cons, ← absorbAll, ih]
    simp [absorb, mark, Segment.newlines, Nat.add_assoc]

theorem tokens_absorbAll :
    (s.absorbAll segments).tokens.toList = s.tokens.toList ++ Segment.tokens s.line segments := by
  induction segments generalizing s with
  | nil => simp [absorbAll, Segment.tokens, Segment.collect]
  | cons segment segments ih =>
    rw [absorbAll, List.foldl_cons, ← absorbAll, ih]
    simp [absorb, mark, Segment.tokens, Segment.collect]

theorem reporter_absorbAll :
    (s.absorbAll segments).reporter =
      s.reporter.reportAll (Segment.diagnostics s.line segments) := by
  induction segments generalizing s with
  | nil => simp [absorbAll, Segment.diagnostics, Segment.collect]
  | cons segment segments ih =>
    rw [absorbAll, List.foldl_cons, ← absorbAll, ih]
    simp [absorb, mark, Segment.diagnostics, Segment.collect, Reporter.reportAll_append]

end Absorbed

theorem run_eq (hf : s.finished = false) (h : Divides s.after segments) :
    ∃ s', s.run =
        (.ok (s.tokens.toList ++ Segment.tokens s.line segments ++
          [⟨.eof, "", .nil, (s.line + s.after.count '\n' : Nat)⟩]), s') ∧
      s'.reporter = s.reporter.reportAll (Segment.diagnostics s.line segments) := by
  have hrest := scanRest_eq (s := { s with finished := true }) h
  refine ⟨(absorbAll segments { s with finished := true }).addEnd, ?_,
    reporter_absorbAll segments { s with finished := true }⟩
  simp only [run, hf, Bool.false_eq_true, if_false, hrest]
  simp only [addEnd, Array.toList_push, tokens_absorbAll, line_absorbAll, h.flatMap_text]

end Scan

/-- Every text has a division: the scan of the text finds it. -/
theorem exists_divides (source : List Char) : ∃ segments, Divides source segments :=
  have ⟨segments, hdivides, _⟩ := (Scan.ofText source {}).exists_scanRest_eq
  ⟨segments, hdivides⟩

variable {source : String} {segments : List Segment}

/-- The end token of a source text, on the line on which the text ends. -/
def Token.ending (source : String) : Token :=
  ⟨.eof, "", .nil, (1 + source.toList.count '\n' : Nat)⟩

/-- A scan finds the tokens and the diagnostics of the division. -/
theorem scanSource_eq (h : Divides source.toList segments) (reporter : Reporter) :
    scanSource source reporter =
      (.ok (Segment.tokens 1 segments ++ [.ending source]),
        reporter.reportAll (Segment.diagnostics 1 segments)) := by
  obtain ⟨s', hrun, hreporter⟩ := Scan.run_eq (s := .ofText source.toList reporter) rfl h
  rw [scanSource, hrun]
  exact Prod.ext rfl hreporter

/-- The scan of a text is maximal munch and loses nothing. The text has one division into segments,
each the longest lexeme at the front of what the segments before it leave; where there is no lexeme,
an opening quotation mark takes the whole rest and any other character itself. The tokens are the
segments of token classes, in order, and one end token. -/
theorem scanSource_maximal_munch (source : String) (reporter : Reporter) :
    ∃ segments, Divides source.toList segments ∧
      (∀ segments', Divides source.toList segments' → segments' = segments) ∧
      segments.flatMap Segment.text = source.toList ∧ (∀ s ∈ segments, s.text ≠ []) ∧
      scanSource source reporter =
        (.ok (Segment.tokens 1 segments ++ [.ending source]),
          reporter.reportAll (Segment.diagnostics 1 segments)) ∧
      List.Forall₂ Segment.Matches (segments.filter Segment.isToken) (Segment.tokens 1 segments) ∧
      ∀ t ∈ Segment.tokens 1 segments, t.isEnd = false := by
  obtain ⟨segments, h⟩ := exists_divides source.toList
  exact ⟨segments, h, fun _ h' => h'.unique h, h.flatMap_text, h.text_ne_nil, scanSource_eq h reporter,
    h.forall₂_tokens 1, h.isEnd_eq_false_of_mem_tokens 1⟩

end LoxSyntax
