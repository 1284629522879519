import Mathlib.Data.List.DropRight
import LoxSyntax.Proofs.Run.Totality
import LoxSyntax.Reporter.Use

/-! # Accounting for diagnostics

Scans and parses that share a reporter add to it and do not see what is in it. So its diagnostics are
what the uses since the last reset have reported, one after the other, and each parse gives back the
piece that it has added (`Reporter.history_accounted`). What a use reports, `Reporter.Use.reported`, is
said without the shared reporter: a report gives its diagnostic, and a scan or a parse gives what it
finds on its own. -/

namespace LoxSyntax.Reporter

variable {use : Use} {source : String} {tokens : List Token} {outcome : Except Diagnostic Expr}
  {r : Reporter}

/-- The diagnostics of a scan on its own. -/
def reportsOfScan (source : String) : List Diagnostic := (scanSource source {}).2.diagnostics.toList

/-- The diagnostics of a parse on its own; a list that cannot be parsed has none. -/
def reportsOfParse (tokens : List Token) : List Diagnostic :=
  match (parseTokens tokens {}).1 with
  | .ok result => result.diagnostics
  | .error _ => []

/-- What a use reports. -/
def Use.reported : Use → List Diagnostic
  | .report diagnostic => [diagnostic]
  | .scan source => reportsOfScan source
  | .parse tokens => reportsOfParse tokens
  | .run source =>
    match (scanSource source {}).1 with
    | .ok tokens => reportsOfScan source ++ reportsOfParse tokens
    | .error _ => reportsOfScan source
  | .reset | .size | .check | .compare .. => []

def Use.resets : Use → Bool
  | .reset => true
  | _ => false

/-- The uses that read a text or tokens. -/
def Use.reads : Use → Bool
  | .scan _ | .parse _ | .run _ => true
  | _ => false

/-- The reporter after the uses of a history. -/
def performAll (history : List Use) (r : Reporter) : Reporter :=
  history.foldl (fun r use => (perform use r).2) r

/-- The uses after the last reset. -/
def sinceReset (history : List Use) : List Use := history.rtakeWhile (!·.resets)

/-! ## One use -/

theorem parseTokens_of_not_closed (h : tokens.getLast?.any Token.isEnd = false) (r : Reporter) :
    parseTokens tokens r = (.error .notClosed, r) := by
  simp [parseTokens, Parse.ofTokens, h]

/-- A check tells by the flag whether there are diagnostics. -/
theorem perform_check (h : r.hadError = true ↔ r.diagnostics.toList ≠ []) :
    perform .check r =
      (.ok (if r.diagnostics.toList = [] then .done else .failed r.diagnostics.toList), r) := by
  by_cases hempty : r.diagnostics.toList = []
  · have hflag : r.hadError = false := by simpa [hempty] using h
    simp only [perform, check, hflag, Bool.false_eq_true, if_false, if_pos hempty]
  · simp only [perform, check, h.2 hempty, if_true, if_neg hempty]

/-- A use that does not reset adds what it reports, and one that reads comes to the same answer
whatever is in the reporter. -/
theorem perform_independent (h : use.resets = false) (r : Reporter) :
    (perform use r).2 = r.reportAll use.reported ∧
      (use.reads = true → (perform use r).1 = (perform use {}).1) := by
  have hnot : ∀ {answers : Prop}, false = true → answers := fun h => absurd h Bool.false_ne_true
  cases use with
  | reset => cases h
  | report d => exact ⟨(reportAll_singleton d r).symm, hnot⟩
  | size | compare => exact ⟨(reportAll_nil r).symm, hnot⟩
  | check =>
    refine ⟨?_, hnot⟩
    cases hflag : r.hadError <;> simp [perform, check, hflag, Use.reported]
  | scan source =>
    obtain ⟨tokens, ds, outcome, hscan, -⟩ := exists_passes_forall source
    simp [perform, Use.reported, reportsOfScan, hscan]
  | parse tokens =>
    cases hclosed : tokens.getLast?.any Token.isEnd with
    | true =>
      obtain ⟨outcome, hparse⟩ := exists_parseTokens_eq hclosed
      simp [perform, Use.reported, reportsOfParse, hparse]
    | false => simp [perform, Use.reported, reportsOfParse, parseTokens_of_not_closed hclosed]
  | run source =>
    obtain ⟨tokens, ds, outcome, hscan, hparse, hrun⟩ := exists_passes_forall source
    simp [perform, Use.reported, reportsOfScan, reportsOfParse, hscan, hparse, hrun]

/-- The diagnostics of a result are the piece by which a parse has taken the reporter from one state
to another, and there are none, or one in place of an expression. -/
structure AddedBy (result : ParseResult) (before after : Reporter) : Prop where
  after_eq : after = before.reportAll result.diagnostics
  piece : after.diagnostics.toList = before.diagnostics.toList ++ result.diagnostics
  empty_iff : result.diagnostics = [] ↔ result.expr ≠ none
  one : result.expr = none → ∃ d, result.diagnostics = [d]

theorem addedBy_ofOutcome (outcome : Except Diagnostic Expr) (r : Reporter) :
    AddedBy (.ofOutcome outcome) r (r.reportAll (ParseResult.ofOutcome outcome).diagnostics) where
  after_eq := rfl
  piece := toList_diagnostics_reportAll ..
  empty_iff := by cases outcome <;> simp [ParseResult.ofOutcome]
  one := by cases outcome <;> simp [ParseResult.ofOutcome]

theorem perform_parse (closed : tokens.getLast?.any Token.isEnd) (r : Reporter) :
    ∃ result r', perform (.parse tokens) r = (.ok (.result result), r') ∧ AddedBy result r r' := by
  obtain ⟨outcome, hparse⟩ := exists_parseTokens_eq closed
  refine ⟨.ofOutcome outcome, _, ?_, addedBy_ofOutcome outcome r⟩
  simp [perform, hparse, Except.mapError, Except.map]

/-- A run parses after its scan has added to the reporter. -/
theorem perform_run (source : String) (r : Reporter) :
    ∃ tokens scanned result r', perform (.scan source) r = (.ok (.tokens tokens), scanned) ∧
      perform (.run source) r = (.ok (.result result), r') ∧ AddedBy result scanned r' := by
  obtain ⟨tokens, ds, outcome, hscan, -, hrun⟩ := exists_passes_forall source
  refine ⟨tokens, r.reportAll ds, .ofOutcome outcome, _, ?_, ?_, addedBy_ofOutcome outcome _⟩
  · simp [perform, hscan, Except.mapError, Except.map]
  · simp [perform, hrun, Except.map, reportAll_append]

/-! ## Every history -/

/-- What holds of a reporter after a history of uses. -/
structure Accounted (history : List Use) (r : Reporter) : Prop where
  hadError_iff : r.hadError = true ↔ r.diagnostics.toList ≠ []
  diagnostics_eq : r.diagnostics.toList = (sinceReset history).flatMap Use.reported
  /-- One more use takes everything away or adds what it reports. -/
  after_eq : ∀ use, (perform use r).2 = if use.resets then {} else r.reportAll use.reported
  /-- What is read does not depend on what has been reported. -/
  independent : ∀ use, use.reads = true → ∀ r' : Reporter,
    (perform use r').1 = (perform use r).1 ∧ (perform use r').2 = r'.reportAll use.reported
  /-- A scan reports what is wrong with the segments of its text. -/
  scan_reported : ∀ source segments, Divides source.toList segments →
    (Use.scan source).reported = Segment.diagnostics 1 segments
  parse_piece : ∀ tokens, tokens.getLast?.any Token.isEnd = true →
    ∃ result r', perform (.parse tokens) r = (.ok (.result result), r') ∧ AddedBy result r r'
  parse_not_closed : ∀ tokens, tokens.getLast?.any Token.isEnd = false →
    perform (.parse tokens) r = (.error (.parse .notClosed), r)
  run_piece : ∀ source, ∃ tokens scanned result r',
    perform (.scan source) r = (.ok (.tokens tokens), scanned) ∧
      perform (.run source) r = (.ok (.result result), r') ∧ AddedBy result scanned r'
  size_eq : perform .size r = (.ok (.count r.diagnostics.toList.length), r)
  /-- A check fails exactly if there are diagnostics, with all of them, and changes nothing. -/
  check_eq : perform .check r =
    (.ok (if r.diagnostics.toList = [] then .done else .failed r.diagnostics.toList), r)

theorem perform_eq (use : Use) (r : Reporter) :
    (perform use r).2 = if use.resets then {} else r.reportAll use.reported := by
  cases hresets : use.resets with
  | true =>
    cases use with
    | reset => rfl
    | _ => cases hresets
  | false => exact (perform_independent hresets r).1

theorem performAll_concat (history : List Use) (use : Use) (r : Reporter) :
    performAll (history ++ [use]) r = (perform use (performAll history r)).2 := by
  simp [performAll]

/-- A reporter is what the uses since the last reset make of an empty one, flag and diagnostics, by
induction on the history from its end. -/
theorem performAll_eq (history : List Use) :
    performAll history {} = reportAll ((sinceReset history).flatMap Use.reported) {} := by
  induction history using List.reverseRecOn with
  | nil => rfl
  | append_singleton history use ih =>
    rw [performAll_concat, perform_eq, sinceReset]
    cases hresets : use.resets with
    | true =>
      rw [List.rtakeWhile_concat_neg _ _ _ (by simp [hresets])]
      rfl
    | false =>
      rw [List.rtakeWhile_concat_pos _ _ _ (by simp [hresets]), List.flatMap_append, ← sinceReset,
        List.flatMap_singleton, reportAll_append, ← ih]
      rfl

/-- Whatever scans, parses, reports and resets share a reporter, its diagnostics are accounted for. -/
theorem history_accounted (history : List Use) : Accounted history (performAll history {}) := by
  have hadError_iff : (performAll history {}).hadError = true ↔
      (performAll history {}).diagnostics.toList ≠ [] := by
    rw [performAll_eq]
    exact hadError_reportAll_iff _
  exact
    { hadError_iff
      diagnostics_eq := by simp [performAll_eq]
      after_eq := fun use => perform_eq use _
      independent := by
        intro use hreads r'
        have hresets : use.resets = false := by
          cases use with
          | scan | parse | run => rfl
          | _ => cases hreads
        obtain ⟨hperform, hanswer⟩ := perform_independent hresets r'
        exact ⟨(hanswer hreads).trans ((perform_independent hresets _).2 hreads).symm, hperform⟩
      scan_reported := fun source segments hdivides => by
        simp [Use.reported, reportsOfScan, scanSource_eq hdivides]
      parse_piece := fun tokens closed => perform_parse closed _
      parse_not_closed := fun tokens h => by
        simp [perform, parseTokens_of_not_closed h, Except.mapError, Except.map]
      run_piece := fun source => perform_run source _
      size_eq := by simp [perform, size]
      check_eq := perform_check hadError_iff }

end LoxSyntax.Reporter
