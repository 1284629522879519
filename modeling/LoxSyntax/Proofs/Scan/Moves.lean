import Mathlib.Logic.Relation
import LoxSyntax.Proofs.Scan.Absorption
import LoxSyntax.Scan.Operation

/-! # The moves of a scan

Every operation on a scan is made of a few moves (`Scan.Move`): the start goes to the cursor, the
cursor passes one character that is there, a newline may be counted as it is passed, and a token, a
diagnostic or the end token is added (`Scan.moves_perform`). Each move keeps the source, takes
nothing back and counts no newline that it does not pass (`Scan.Continues`), and so do any moves one
after the other and any history of operations (`Scan.continues_performAll`). -/

namespace LoxSyntax.Scan

inductive Move : Scan → Scan → Prop
  | mark {s} : Move s s.mark
  | pass {s c rest} : s.after = c :: rest →
      Move s { s with lexeme := s.lexeme ++ [c], after := rest }
  | passNewline {s rest} : s.after = '\n' :: rest →
      Move s { s with lexeme := s.lexeme ++ ['\n'], after := rest, line := s.line + 1 }
  | addToken {s} (kind : Kind) (literal : Literal) : Move s (s.addToken kind literal)
  | report {s} (problem : Problem) : Move s (s.report problem)
  | addEnd {s} : Move s s.addEnd

def Moves : Scan → Scan → Prop := Relation.ReflTransGen Move

variable {s s' s'' : Scan} {c : Char} {ds rest : List Char}

theorem Moves.refl (s : Scan) : Moves s s := Relation.ReflTransGen.refl

theorem Move.moves (h : Move s s') : Moves s s' := Relation.ReflTransGen.single h

theorem Moves.trans (h : Moves s s') (h' : Moves s' s'') : Moves s s'' :=
  Relation.ReflTransGen.trans h h'

/-! ## Operations as moves -/

theorem skip_one_of_cons (h : s.after = c :: rest) :
    s.skip 1 = { s with lexeme := s.lexeme ++ [c], after := rest } := by
  simp [skip, h]

theorem moves_skip_one (h : s.after = c :: rest) : Moves s (s.skip 1) :=
  skip_one_of_cons h ▸ (Move.pass h).moves

theorem moves_pass (ha : s.after = ds ++ rest) :
    Moves s { s with lexeme := s.lexeme ++ ds, after := rest } := by
  induction ds generalizing s with
  | nil =>
    obtain rfl : s.after = rest := ha
    rw [List.append_nil]
    exact .refl s
  | cons d ds ih =>
    have hrest := ih (s := { s with lexeme := s.lexeme ++ [d], after := ds ++ rest }) rfl
    rw [List.append_assoc, List.singleton_append] at hrest
    exact (Move.pass ha).moves.trans hrest

theorem moves_skipWhile (p : Char → Bool) (s : Scan) : Moves s (s.skipWhile p) :=
  moves_pass List.takeWhile_append_dropWhile.symm

/-- The cursor passes characters and counts the newlines among them. -/
theorem moves_passLines (ha : s.after = ds ++ rest) :
    Moves s { s with
      lexeme := s.lexeme ++ ds
      after := rest
      line := s.line + ds.count '\n' } := by
  induction ds generalizing s with
  | nil =>
    obtain rfl : s.after = rest := ha
    rw [List.append_nil]
    exact .refl s
  | cons d ds ih =>
    by_cases hd : d = '\n'
    · subst hd
      have hrest := ih (s := { s with
        lexeme := s.lexeme ++ ['\n']
        after := ds ++ rest
        line := s.line + 1 }) rfl
      rw [List.append_assoc, List.singleton_append] at hrest
      rw [List.count_cons_self, Nat.add_comm (ds.count _), ← Nat.add_assoc]
      exact (Move.passNewline ha).moves.trans hrest
    · have hrest := ih (s := { s with lexeme := s.lexeme ++ [d], after := ds ++ rest }) rfl
      rw [List.append_assoc, List.singleton_append] at hrest
      rw [List.count_cons_of_ne hd]
      exact (Move.pass ha).moves.trans hrest

theorem moves_string (s : Scan) : Moves s s.string := by
  obtain ⟨body, rest, ha, hbody, hrest⟩ := exists_run (· ≠ '"') s.after
  have hbodyMoves := moves_passLines ha
  rw [Scan.string, skipWhile_of_run ha hbody hrest, ha, takeWhile_append_stop hbody hrest]
  refine hbodyMoves.trans ?_
  cases rest with
  | nil => exact (Move.report _).moves
  | cons d rest => exact (moves_skip_one rfl).trans (Move.addToken _ _).moves

theorem moves_skipNumber (s : Scan) : Moves s s.skipNumber := by
  simp only [skipNumber]
  split
  · rename_i hpoint
    obtain ⟨rest, hafter⟩ := List.head?_eq_some_iff.1
      (of_decide_eq_true (Bool.and_eq_true_iff.1 hpoint).1)
    exact ((moves_skipWhile _ s).trans (moves_skip_one hafter)).trans (moves_skipWhile _ _)
  · exact moves_skipWhile _ s

theorem moves_number (s : Scan) : Moves s s.number.2 := by
  simp only [number]
  split
  · exact (moves_skipNumber s).trans (Move.addToken _ _).moves
  · exact moves_skipNumber s

theorem moves_scanOpened {opening : Opening} (h : opening ≠ .newline) (s : Scan) :
    Moves s (s.scanOpened opening).2 := by
  cases opening with
  | newline => exact absurd rfl h
  | punctuation kind => exact (Move.addToken _ _).moves
  | operator alone withEqual =>
    simp only [scanOpened]
    split
    · rename_i hnext
      obtain ⟨rest, hafter⟩ := List.head?_eq_some_iff.1 hnext
      exact (moves_skip_one hafter).trans (Move.addToken _ _).moves
    · exact (Move.addToken _ _).moves
  | slash =>
    simp only [scanOpened]
    split
    · rename_i hnext
      obtain ⟨rest, hafter⟩ := List.head?_eq_some_iff.1 hnext
      exact (moves_skip_one hafter).trans (moves_skipWhile _ _)
    · exact (Move.addToken _ _).moves
  | blank => exact .refl s
  | string => exact moves_string s
  | number => exact moves_number s
  | word => exact (moves_skipWhile _ s).trans (Move.addToken _ _).moves
  | nothing => exact (Move.report _).moves

theorem moves_scanToken (s : Scan) : Moves s s.scanToken.2 := by
  cases hafter : s.after with
  | nil =>
    simp only [scanToken, hafter]
    exact .refl s
  | cons c rest =>
    rw [scanToken_of_cons hafter]
    by_cases hopening : Opening.of c = .newline
    · have hadmits := Opening.admits_of c
      rw [hopening] at hadmits
      obtain rfl : c = '\n' := hadmits
      rw [hopening, skip_one_of_cons hafter]
      exact (Move.passNewline hafter).moves
    · exact (moves_skip_one hafter).trans (moves_scanOpened hopening _)

theorem moves_scanRest (s : Scan) : Moves s s.scanRest.2 := by
  fun_induction scanRest s with
  | case1 s => exact .refl s
  | case2 s _ s' hstep _ ih =>
    have hscan := moves_scanToken s.mark
    rw [hstep] at hscan
    exact (Move.mark.moves.trans hscan).trans ih
  | case3 s _ fault s' hstep =>
    have hscan := moves_scanToken s.mark
    rw [hstep] at hscan
    exact Move.mark.moves.trans hscan

theorem moves_run (hf : s.finished = false) : Moves { s with finished := true } s.run.2 := by
  have hrest := moves_scanRest { s with finished := true }
  simp only [run, hf, Bool.false_eq_true, if_false]
  split
  · rename_i hscan
    rw [hscan] at hrest
    exact hrest.trans Move.addEnd.moves
  · rename_i hscan
    rwa [hscan] at hrest

theorem moves_perform {operation : Operation} (h : operation ≠ .run) (s : Scan) :
    Moves s (perform operation s).2 := by
  cases operation with
  | isAtEnd | peek | peekNext => exact .refl s
  | advance =>
    cases hafter : s.after with
    | nil =>
      simp only [perform, advance, hafter]
      exact .refl s
    | cons c rest =>
      simp only [perform, advance, hafter]
      exact moves_skip_one hafter
  | matchText text =>
    simp only [perform, matchText]
    split
    · rename_i hnext
      obtain ⟨c, hnext, -⟩ := Option.map_eq_some_iff.1 hnext
      obtain ⟨rest, hafter⟩ := List.head?_eq_some_iff.1 hnext
      exact moves_skip_one hafter
    · exact .refl s
  | scanToken =>
    rw [perform, Prod.map_snd]
    exact moves_scanToken s
  | skipComment => exact moves_skipWhile _ s
  | string => exact moves_string s
  | number =>
    rw [perform, Prod.map_snd]
    exact moves_number s
  | word => exact (moves_skipWhile _ s).trans (Move.addToken _ _).moves
  | addToken kind literal => exact (Move.addToken kind literal).moves
  | mark => exact Move.mark.moves
  | run => exact absurd rfl h

/-! ## What moves keep -/

/-- The text before the cursor. -/
def passed (s : Scan) : List Char := s.before.reverse ++ s.lexeme

theorem length_passed (s : Scan) : s.passed.length = s.current := by
  simp [passed, current, start]

theorem source_eq_passed (s : Scan) : s.source = s.passed ++ s.after := rfl

theorem take_current (s : Scan) : s.source.take s.current = s.passed := by
  rw [source_eq_passed, ← length_passed, List.take_left]

theorem extract_start_current (s : Scan) : s.source.extract s.start s.current = s.lexeme := by
  have hdrop : s.source.drop s.start = s.lexeme ++ s.after := by
    rw [source, List.append_assoc, start, ← List.length_reverse, List.drop_left]
  rw [List.extract_eq_take_drop, hdrop, current, Nat.add_sub_cancel_left, List.take_left]

/-- A later state of the same scan: nothing is taken back, and no newline is counted that has not
been passed. -/
structure Continues (s s' : Scan) : Prop where
  source_eq : s'.source = s.source
  start_le : s.start ≤ s'.start
  current_le : s.current ≤ s'.current
  line_le : s.line ≤ s'.line
  newlines_le : s'.line + s.passed.count '\n' ≤ s.line + s'.passed.count '\n'
  tokens : s.tokens.toList <+: s'.tokens.toList
  diagnostics : s.reporter.diagnostics.toList <+: s'.reporter.diagnostics.toList
  finished : s.finished = true → s'.finished = true

theorem Continues.refl (s : Scan) : Continues s s :=
  ⟨rfl, le_rfl, le_rfl, le_rfl, le_rfl, List.prefix_rfl, List.prefix_rfl, id⟩

theorem Continues.trans (h : Continues s s') (h' : Continues s' s'') : Continues s s'' where
  source_eq := h'.source_eq.trans h.source_eq
  start_le := h.start_le.trans h'.start_le
  current_le := h.current_le.trans h'.current_le
  line_le := h.line_le.trans h'.line_le
  newlines_le := by
    have := h.newlines_le
    have := h'.newlines_le
    omega
  tokens := h.tokens.trans h'.tokens
  diagnostics := h.diagnostics.trans h'.diagnostics
  finished := h'.finished ∘ h.finished

theorem Move.continues (h : Move s s') : Continues s s' := by
  cases h with
  | mark =>
    constructor <;>
      simp [Scan.mark, source, start, current, passed, List.reverseAux_eq, Nat.add_comm]
  | pass hafter =>
    constructor <;>
      simp [source, start, current, passed, hafter, List.count_singleton, ← Nat.add_assoc]
  | passNewline hafter =>
    constructor <;> simp [source, start, current, passed, hafter]
    omega
  | addToken kind literal =>
    have htokens : s.tokens.toList <+: (s.addToken kind literal).tokens.toList := by
      simp [Scan.addToken]
    exact ⟨rfl, le_rfl, le_rfl, le_rfl, le_rfl, htokens, List.prefix_rfl, id⟩
  | report problem =>
    have hdiagnostics : s.reporter.diagnostics.toList <+:
        (s.report problem).reporter.diagnostics.toList := by
      simp [Scan.report, Reporter.report]
    exact ⟨rfl, le_rfl, le_rfl, le_rfl, le_rfl, List.prefix_rfl, hdiagnostics, id⟩
  | addEnd =>
    have htokens : s.tokens.toList <+: s.addEnd.tokens.toList := by simp [Scan.addEnd]
    exact ⟨rfl, le_rfl, le_rfl, le_rfl, le_rfl, htokens, List.prefix_rfl, id⟩

theorem Moves.continues (h : Moves s s') : Continues s s' := by
  induction h with
  | refl => exact .refl s
  | tail _ hmove ih => exact ih.trans hmove.continues

theorem Moves.finished_eq (h : Moves s s') : s'.finished = s.finished := by
  induction h with
  | refl => rfl
  | tail _ hmove ih =>
    rw [← ih]
    cases hmove <;> rfl

theorem continues_finish (s : Scan) : Continues s { s with finished := true } :=
  ⟨rfl, le_rfl, le_rfl, le_rfl, le_rfl, List.prefix_rfl, List.prefix_rfl, fun _ => rfl⟩

/-- Only a run that has begun keeps another from beginning. -/
theorem run_of_finished (hf : s.finished = true) : s.run = (.error .alreadyScanned, s) := by
  rw [run, if_pos hf]

theorem perform_run_snd (s : Scan) : (perform .run s).2 = s.run.2 := by
  rw [perform, Prod.map_snd, id]

theorem continues_perform (operation : Operation) (s : Scan) :
    Continues s (perform operation s).2 := by
  by_cases h : operation = .run
  · subst h
    rw [perform_run_snd]
    cases hf : s.finished with
    | true => rw [run_of_finished hf]; exact .refl s
    | false => exact (continues_finish s).trans (moves_run hf).continues
  · exact (moves_perform h s).continues

theorem finished_perform_iff (operation : Operation) (s : Scan) :
    (perform operation s).2.finished = true ↔ operation = .run ∨ s.finished = true := by
  by_cases h : operation = .run
  · subst h
    rw [perform_run_snd]
    cases hf : s.finished with
    | true => simp [run_of_finished hf, hf]
    | false => simp [(moves_run hf).finished_eq]
  · simp [(moves_perform h s).finished_eq, h]

/-! ## Histories -/

/-- The scan after the operations of a history, some of which may have failed. -/
def performAll (history : List Operation) (s : Scan) : Scan :=
  history.foldl (fun s operation => (perform operation s).2) s

theorem performAll_cons (operation : Operation) (history : List Operation) (s : Scan) :
    performAll (operation :: history) s = performAll history (perform operation s).2 := rfl

theorem continues_performAll (history : List Operation) (s : Scan) :
    Continues s (performAll history s) := by
  induction history generalizing s with
  | nil => exact .refl s
  | cons operation history ih => exact (continues_perform operation s).trans (ih _)

theorem finished_performAll_iff (history : List Operation) (s : Scan) :
    (performAll history s).finished = true ↔ .run ∈ history ∨ s.finished = true := by
  induction history generalizing s with
  | nil => simp [performAll]
  | cons operation history ih =>
    rw [performAll_cons, ih, finished_perform_iff, List.mem_cons, eq_comm (a := operation),
      or_left_comm, or_assoc]

end LoxSyntax.Scan
