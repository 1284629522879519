import LoxSyntax.Proofs.Run.LongSum
import LoxSyntax.Proofs.Run.Totality

/-! # Strict runs and plain runs

A plain run shows its diagnostics and ends with a status, a strict one breaks off with them. They
agree whatever the modes are, as long as there is room to write the tree (`Run.text_agree`): the strict
run breaks off exactly if the plain one ends with status 65, its message is what the plain run writes
on the standard error, and otherwise the two are the same run. Without the tokens nothing is written on
the standard output exactly if there is no expression, so a text of which only the scan complains still
shows its expression. If the tree is too deep, the plain run breaks off, even if there is nothing wrong
with its text, as with a sum of three hundred operators (`Run.not_agree_sumOfOnes`). -/

namespace LoxSyntax

variable {source stdout : String} {modes : Modes} {tokens : List Token} {result : ParseResult}
  {reporter : Reporter} {ds : List Diagnostic} {room : Nat}

/-- The diagnostics of a message, one a line. -/
theorem Diagnostic.textOfList_append_newline (h : ds ≠ []) :
    textOfList ds ++ "\n" = Text.unlines (ds.map text) := by
  induction ds with
  | nil => exact absurd rfl h
  | cons d ds ih =>
    cases ds with
    | nil => simp [textOfList, Text.unlines, String.join_cons]
    | cons d' ds =>
      have hrest := ih (List.cons_ne_nil _ _)
      simp only [textOfList, Text.unlines, List.map_cons, String.join_cons,
        String.intercalate_cons_cons, String.append_assoc] at hrest ⊢
      rw [hrest]

namespace Run

/-- How a plain run and a strict run of one text go together, given what was found wrong with it. -/
structure Agree (found : List Diagnostic) (plain strict : Report) : Prop where
  ending_eq : plain.ending = .ok (if found = [] then 0 else 65)
  stderr_eq : plain.output.stderr = Text.unlines (found.map Diagnostic.text)
  breaks_iff : (∃ ds, strict.ending = .error (.syntaxErrors ds)) ↔ plain.ending = .ok 65
  /-- A strict run that breaks off writes nothing, and its message are the diagnostics. -/
  broken : plain.ending = .ok 65 → strict.output = {} ∧
    ∃ fault, strict.ending = .error fault ∧ fault.message ++ "\n" = plain.output.stderr
  unbroken : plain.ending ≠ .ok 65 → strict = plain

/-- The flag of the reporter of a run tells whether anything has been found. -/
theorem hadError_iff_of_runSource (h : runSource source {} = (.ok (tokens, result), reporter)) :
    reporter.hadError = true ↔ reporter.diagnostics.toList ≠ [] := by
  obtain ⟨tokens', ds, outcome, -, -, hrun⟩ := exists_passes_forall source
  cases (hrun {}).symm.trans h
  exact Reporter.hadError_reportAll_iff _

section OneText

variable (h : runSource source {} = (.ok (tokens, result), reporter))

include h

theorem text_plain (hrender : modes.render tokens result room = .ok stdout) :
    text source modes false room = .succeed ⟨stdout, diagnosticLines reporter⟩
      (if reporter.diagnostics.toList = [] then 0 else 65) := by
  have hflag := hadError_iff_of_runSource h
  simp only [text, h, hrender, Bool.false_and, Bool.false_eq_true, if_false, hflag, ne_eq, ite_not]
  rfl

theorem text_plain_of_tooDeep (hrender : modes.render tokens result room = .error .tooDeep) :
    text source modes false room = .fail (.unprintable .tooDeep) := by
  simp only [text, h, hrender, Bool.false_and, Bool.false_eq_true, if_false]

/-- Without diagnostics strictness makes no difference. -/
theorem text_strict_of_eq_nil (hfound : reporter.diagnostics.toList = []) :
    text source modes true room = text source modes false room := by
  have hflag : reporter.hadError = false := by simpa [hfound] using hadError_iff_of_runSource h
  simp only [text, h, hflag, Bool.and_false]

/-- With diagnostics a strict run does not come to writing the tree. -/
theorem text_strict_of_ne_nil (hfound : reporter.diagnostics.toList ≠ []) :
    text source modes true room = .fail (.syntaxErrors reporter.diagnostics.toList) := by
  have hflag : reporter.hadError = true := (hadError_iff_of_runSource h).2 hfound
  simp only [text, h, hflag, Bool.and_true, if_true]

theorem agree_of_render (hrender : modes.render tokens result room = .ok stdout) :
    Agree reporter.diagnostics.toList (text source modes false room)
      (text source modes true room) := by
  have hlines : diagnosticLines reporter =
      Text.unlines (reporter.diagnostics.toList.map Diagnostic.text) := rfl
  by_cases hfound : reporter.diagnostics.toList = []
  · rw [text_strict_of_eq_nil h hfound, text_plain h hrender, if_pos hfound]
    exact
      { ending_eq := by rw [if_pos hfound]; rfl
        stderr_eq := hlines
        breaks_iff := by simp [Report.succeed]
        broken := by simp [Report.succeed]
        unbroken := fun _ => rfl }
  · rw [text_strict_of_ne_nil h hfound, text_plain h hrender, if_neg hfound]
    exact
      { ending_eq := by rw [if_neg hfound]; rfl
        stderr_eq := hlines
        breaks_iff := by simp [Report.succeed, Report.fail]
        broken := fun _ => ⟨rfl, _, rfl, Diagnostic.textOfList_append_newline hfound⟩
        unbroken := fun hne => absurd rfl hne }

end OneText

/-- A run that breaks off for want of room has no status. -/
theorem not_agree_of_fail {fault : Fault} {strict : Report} :
    ¬ Agree ds (.fail fault) strict := fun h => by cases h.ending_eq

/-- Runs of one text agree about its diagnostics, whatever the modes and whether they are strict,
exactly if there is room for what the modes ask for. The diagnostics are those of the scan and after
them at most one of the parse, which stands there exactly if there is no expression, and the flag of the
reporter tells whether there are any. With room the run writes what the mode asks for. Without it the
plain run breaks off, and so does the strict one, with the diagnostics if there are any. -/
theorem text_agree (source : String) :
    ∃ tokens scanned result reporter,
      scanSource source {} = (.ok tokens, scanned) ∧
      runSource source {} = (.ok (tokens, result), reporter) ∧
      reporter.diagnostics.toList = scanned.diagnostics.toList ++ result.diagnostics ∧
      (reporter.hadError = true ↔ reporter.diagnostics.toList ≠ []) ∧
      result.diagnostics.length ≤ 1 ∧ (result.expr = none ↔ result.diagnostics ≠ []) ∧
      ∀ modes room,
        (Agree reporter.diagnostics.toList (text source modes false room)
          (text source modes true room) ↔ modes.Fits room result) ∧
        (modes.Fits room result →
          modes.render tokens result room = .ok (text source modes false room).output.stdout ∧
          (modes.tokens = false →
            ((text source modes false room).output.stdout = "" ↔ result.expr = none))) ∧
        (¬ modes.Fits room result →
          text source modes false room = .fail (.unprintable .tooDeep) ∧
          text source modes true room = .fail
            (if reporter.diagnostics.toList = [] then .unprintable .tooDeep
            else .syntaxErrors reporter.diagnostics.toList)) := by
  obtain ⟨tokens, scanned, outcome, hscan, hrun⟩ := exists_passes source {}
  refine ⟨tokens, scanned, .ofOutcome outcome, _, hscan, hrun, by simp,
    hadError_iff_of_runSource hrun, ?_, ?_, fun modes room => ?_⟩
  · cases outcome with
    | ok e => exact Nat.zero_le 1
    | error d => exact Nat.le_refl 1
  · cases outcome with
    | ok e => simp [ParseResult.ofOutcome]
    | error d => simp [ParseResult.ofOutcome]
  · by_cases hfits : modes.Fits room (.ofOutcome outcome)
    · obtain ⟨stdout, hrender, hempty⟩ := Modes.exists_render_of_fits hrun hfits
      have hstdout : (text source modes false room).output.stdout = stdout := by
        rw [text_plain hrun hrender]
        rfl
      rw [hstdout]
      exact ⟨iff_of_true (agree_of_render hrun hrender) hfits, fun _ => ⟨hrender, hempty⟩,
        fun hnot => absurd hfits hnot⟩
    · have hplain := text_plain_of_tooDeep hrun (Modes.render_of_not_fits hrun hfits)
      refine ⟨iff_of_false (hplain ▸ not_agree_of_fail) hfits, fun h => absurd h hfits,
        fun _ => ⟨hplain, ?_⟩⟩
      split
      · next hnone => rw [text_strict_of_eq_nil hrun hnone, hplain]
      · next hfound => exact text_strict_of_ne_nil hrun hfound

/-- Nothing is wrong with a sum of three hundred operators, and its runs break off. -/
theorem not_agree_sumOfOnes :
    ∃ tokens result, runSource (sumOfOnes 300) {} = (.ok (tokens, result), {}) ∧
      text (sumOfOnes 300) {} false = .fail (.unprintable .tooDeep) ∧
      ¬ Agree [] (text (sumOfOnes 300) {} false) (text (sumOfOnes 300) {} true) := by
  obtain ⟨tokens, result, hrun, hdeep⟩ :=
    exists_runSource_sumOfOnes_not_fits rfl (by decide : _ < Modes.cost {} * 300)
  have hplain : text (sumOfOnes 300) {} false = .fail (.unprintable .tooDeep) :=
    text_plain_of_tooDeep hrun (Modes.render_of_not_fits hrun hdeep)
  exact ⟨tokens, result, hrun, hplain, hplain ▸ not_agree_of_fail⟩

end Run

end LoxSyntax
