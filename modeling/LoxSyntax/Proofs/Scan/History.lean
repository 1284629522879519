import LoxSyntax.Proofs.Scan.Moments

/-! # A scan after any history

Operations may be carried out on a scan in any order, on characters for which they are not meant
and after failures. Whatever the history, the cursor stays within the source and the line within the
newlines passed, each token is the piece of the source up to the cursor of the moment in which it
was added, and an operation that fails leaves the tokens as they were (`performAll_sound`). -/

namespace LoxSyntax.Scan

variable {s s' : Scan} {fault : Fault} {operation : Operation}

/-! ## Operations that fail -/

/-- The operations that fail, their faults, and the states that they leave. -/
inductive Fails : Operation → Scan → Fault → Scan → Prop
  | advance {s : Scan} : s.isAtEnd = true → Fails .advance s .endOfText s
  | scanToken {s : Scan} : s.isAtEnd = true → Fails .scanToken s .endOfText s
  | number {s : Scan} : Number.ofText? s.skipNumber.piece = none →
      Fails .number s (.notANumber s.skipNumber.piece) s.skipNumber
  /-- The piece begins with characters before the digit. -/
  | scanNumber {s : Scan} {c : Char} : s.next? = some c → Opening.of c = .number →
      Number.ofText? (s.skip 1).skipNumber.piece = none →
      Fails .scanToken s (.notANumber (s.skip 1).skipNumber.piece) (s.skip 1).skipNumber
  | run {s : Scan} : s.finished = true → Fails .run s .alreadyScanned s

theorem map_eq_error_iff {α β : Type} {step : Except Fault α × Scan} {f : α → β} :
    step.map (Except.map f) id = (.error fault, s') ↔ step = (.error fault, s') := by
  rcases step with ⟨_ | _, _⟩ <;> simp [Except.map]

theorem number_eq_error_iff :
    s.number = (.error fault, s') ↔ Number.ofText? s.skipNumber.piece = none ∧
      fault = .notANumber s.skipNumber.piece ∧ s' = s.skipNumber := by
  rw [piece_eq]
  cases hvalue : Number.ofText? (.ofList s.skipNumber.lexeme) with
  | none => simp [number, hvalue, eq_comm]
  | some value => simp [number, hvalue]

theorem scanOpened_eq_error_iff {opening : Opening} :
    s.scanOpened opening = (.error fault, s') ↔
      opening = .number ∧ s.number = (.error fault, s') := by
  cases opening with
  | operator | slash =>
    simp only [scanOpened]
    split <;> simp
  | _ => simp [scanOpened]

theorem scanToken_eq_error_iff :
    s.scanToken = (.error fault, s') ↔ (s.isAtEnd = true ∧ fault = .endOfText ∧ s' = s) ∨
      ∃ c, s.next? = some c ∧ Opening.of c = .number ∧
        Number.ofText? (s.skip 1).skipNumber.piece = none ∧
        fault = .notANumber (s.skip 1).skipNumber.piece ∧ s' = (s.skip 1).skipNumber := by
  cases hafter : s.after with
  | nil => simp [scanToken, isAtEnd, next?, hafter, eq_comm]
  | cons c rest =>
    rw [scanToken_of_cons hafter, scanOpened_eq_error_iff, number_eq_error_iff]
    simp [isAtEnd, next?, hafter]

theorem advance_eq_error_iff :
    s.advance = (.error fault, s') ↔ s.isAtEnd = true ∧ fault = .endOfText ∧ s' = s := by
  cases hafter : s.after with
  | nil => simp [advance, isAtEnd, hafter, eq_comm]
  | cons c rest => simp [advance, isAtEnd, hafter]

theorem run_eq_error_iff :
    s.run = (.error fault, s') ↔ s.finished = true ∧ fault = .alreadyScanned ∧ s' = s := by
  cases hf : s.finished with
  | true => simp [run_of_finished hf, eq_comm]
  | false =>
    obtain ⟨scanned, -, hrun⟩ := run_of_not_finished hf
    simp [hrun]

theorem fails_of_perform (h : perform operation s = (.error fault, s')) :
    Fails operation s fault s' := by
  cases operation with
  | isAtEnd | peek | peekNext | matchText | skipComment | string | word | addToken | mark => cases h
  | advance =>
    rw [perform, map_eq_error_iff, advance_eq_error_iff] at h
    obtain ⟨hend, rfl, rfl⟩ := h
    exact .advance hend
  | scanToken =>
    rw [perform, map_eq_error_iff, scanToken_eq_error_iff] at h
    obtain ⟨hend, rfl, rfl⟩ | ⟨c, hnext, hopening, hvalue, rfl, rfl⟩ := h
    · exact .scanToken hend
    · exact .scanNumber hnext hopening hvalue
  | number =>
    rw [perform, map_eq_error_iff, number_eq_error_iff] at h
    obtain ⟨hvalue, rfl, rfl⟩ := h
    exact .number hvalue
  | run =>
    rw [perform, map_eq_error_iff, run_eq_error_iff] at h
    obtain ⟨hf, rfl, rfl⟩ := h
    exact .run hf

theorem Fails.perform_eq (h : Fails operation s fault s') :
    perform operation s = (.error fault, s') := by
  cases h with
  | advance hend =>
    rw [perform, map_eq_error_iff, advance_eq_error_iff]
    exact ⟨hend, rfl, rfl⟩
  | scanToken hend =>
    rw [perform, map_eq_error_iff, scanToken_eq_error_iff]
    exact .inl ⟨hend, rfl, rfl⟩
  | number hvalue =>
    rw [perform, map_eq_error_iff, number_eq_error_iff]
    exact ⟨hvalue, rfl, rfl⟩
  | @scanNumber _ c hnext hopening hvalue =>
    rw [perform, map_eq_error_iff, scanToken_eq_error_iff]
    exact .inr ⟨c, hnext, hopening, hvalue, rfl, rfl⟩
  | run hf =>
    rw [perform, map_eq_error_iff, run_eq_error_iff]
    exact ⟨hf, rfl, rfl⟩

theorem Fails.tokens_eq (h : Fails operation s fault s') : s'.tokens = s.tokens := by
  cases h with
  | advance | scanToken | run => rfl
  | number => exact tokens_skipNumber s
  | scanNumber => exact tokens_skipNumber (s.skip 1)

/-! ## The value of a string -/

/-- The piece of the source without its first and its last character. -/
theorem extract_inner (h : s.lexeme ≠ []) :
    s.source.extract (s.start + 1) (s.current - 1) = s.lexeme.tail.dropLast := by
  obtain ⟨c, text, hlexeme⟩ := List.exists_cons_of_ne_nil h
  have hdrop : s.source.drop (s.start + 1) = text ++ s.after := by
    have hsource : s.source = (s.before.reverse ++ [c]) ++ (text ++ s.after) := by
      simp [source, hlexeme]
    have hlength : s.start + 1 = (s.before.reverse ++ [c]).length := by simp [start]
    rw [hsource, hlength, List.drop_left]
  have hwidth : s.current - 1 - (s.start + 1) = text.length - 1 := by
    simp only [current, hlexeme, List.length_cons]
    omega
  rw [List.extract_eq_take_drop, hdrop, hwidth, hlexeme, List.tail_cons, List.dropLast_eq_take,
    List.take_append_of_le_length (Nat.sub_le _ _)]

/-- The value of a string is cut from the source between places that are not before its beginning,
wherever the scan of the string has begun. -/
theorem string_cases (s : Scan) :
    (s.string.isAtEnd = true ∧ s.string.tokens = s.tokens) ∨
    (1 ≤ s.string.current ∧
      s.string.tokens = s.tokens.push ⟨.string, s.string.piece,
        .text (.ofList (s.source.extract (s.string.start + 1) (s.string.current - 1))),
        s.string.line⟩) := by
  obtain ⟨body, rest, ha, hbody, hrest⟩ := exists_run (· ≠ '"') s.after
  cases rest with
  | nil =>
    have hstring : s.string = Scan.report .unterminatedString
        { s with lexeme := s.lexeme ++ body, after := [], line := s.line + body.count '\n' } := by
      rw [Scan.string, skipWhile_of_run ha hbody hrest, ha, takeWhile_append_stop hbody hrest]
      rfl
    rw [hstring]
    exact .inl ⟨rfl, rfl⟩
  | cons d rest =>
    let closed : Scan :=
      { s with lexeme := s.lexeme ++ body ++ [d], after := rest, line := s.line + body.count '\n' }
    have hstring : s.string =
        closed.addToken .string (.text (.ofList closed.lexeme.tail.dropLast)) := by
      rw [Scan.string, skipWhile_of_run ha hbody hrest, ha, takeWhile_append_stop hbody hrest]
      rfl
    have hlexeme : closed.lexeme ≠ [] := by simp [closed]
    have hsource : closed.source = s.source := by simp [closed, source, ha]
    have hpiece : (closed.addToken .string (.text (.ofList closed.lexeme.tail.dropLast))).piece =
        .ofList closed.lexeme := piece_eq _
    have hcurrent : 1 ≤ closed.current := by
      have := List.length_pos_iff.2 hlexeme
      simp only [current]
      omega
    rw [hstring, hpiece, ← hsource, ← extract_inner hlexeme]
    exact .inr ⟨hcurrent, rfl⟩

/-! ## Every history -/

/-- The cursor is within the source, and the line within the newlines before the cursor. -/
structure InBounds (source : List Char) (s : Scan) : Prop where
  source_eq : s.source = source
  start_le : s.start ≤ s.current
  current_le : s.current ≤ source.length
  one_le_line : 1 ≤ s.line
  line_le : s.line - 1 ≤ (source.take s.current).count '\n'

theorem Continues.inBounds {source : List Char} {reporter : Reporter}
    (h : Continues (ofText source reporter) s) : s.InBounds source := by
  have hsource : s.source = source := h.source_eq
  have hnewlines : s.line ≤ 1 + s.passed.count '\n' := h.newlines_le
  refine ⟨hsource, Nat.le_add_right _ _, ?_, h.line_le, ?_⟩
  · rw [← hsource, source_eq_passed, List.length_append, length_passed]
    exact Nat.le_add_right _ _
  · rw [← hsource, take_current]
    omega

theorem perform_number_of_none (h : Number.ofText? (perform .number s).2.piece = none) :
    perform .number s = (.error (.notANumber (perform .number s).2.piece), (perform .number s).2) ∧
      (perform .number s).2.tokens = s.tokens := by
  have hpiece : (perform .number s).2.piece = s.skipNumber.piece := by
    rw [perform, Prod.map_snd, piece_eq, piece_eq]
    simp only [number]
    split <;> rfl
  rw [hpiece] at h ⊢
  have hfails : perform .number s = (.error (.notANumber s.skipNumber.piece), s.skipNumber) :=
    Fails.perform_eq (.number h)
  rw [hfails]
  exact ⟨rfl, tokens_skipNumber s⟩

/-- What holds of a scan after a history of operations. The first state is that of a scan about to
begin, and the operations may have failed. -/
structure Sound (first : Scan) (history : List Operation) (s : Scan) : Prop where
  last_moment : (momentsAll history first).getLastD first = s
  in_bounds : ∀ m ∈ first :: momentsAll history first, m.InBounds first.source
  /-- Later operations take back nothing. -/
  continues : ∀ more, Continues s (performAll more s)
  /-- Each token was added in one of the moments. -/
  added : ∀ i t, s.tokens[i]? = some t → ∃ past m m' future,
    first :: momentsAll history first = past ++ m :: m' :: future ∧ m.tokens.size = i ∧ m.Adds m' t
  /-- Wherever a string is scanned, its value is cut from the source between places that are not
  before its beginning, unless there is no value. -/
  string_value : ∀ called : Scan, called.source = first.source →
    (called.string.isAtEnd = true ∧ called.string.tokens = called.tokens) ∨
    (1 ≤ called.string.current ∧
      called.string.tokens = called.tokens.push ⟨.string, called.string.piece,
        .text (.ofList
          (first.source.extract (called.string.start + 1) (called.string.current - 1))),
        called.string.line⟩)
  at_end : s.isAtEnd = true →
    perform .advance s = (.error .endOfText, s) ∧ perform .scanToken s = (.error .endOfText, s)
  not_a_number : Number.ofText? (perform .number s).2.piece = none →
    perform .number s = (.error (.notANumber (perform .number s).2.piece), (perform .number s).2) ∧
      (perform .number s).2.tokens = s.tokens
  run_again : .run ∈ history → perform .run s = (.error .alreadyScanned, s)
  /-- No operation fails and adds a token. -/
  tokens_of_fault : ∀ operation fault s', perform operation s = (.error fault, s') →
    s'.tokens = s.tokens

/-- Whatever is asked of a scan, in any order and after any failures, the scan stays sound. -/
theorem performAll_sound (source : List Char) (reporter : Reporter) (history : List Operation) :
    Sound (ofText source reporter) history (performAll history (ofText source reporter)) := by
  let first := ofText source reporter
  have hleads := leads_momentsAll history first
  refine
    { last_moment := hleads.getLastD_eq
      in_bounds := ?_
      continues := fun more => continues_performAll more _
      added := fun i t ht => hleads.exists_adds ht (Nat.zero_le i)
      string_value := ?_
      at_end := fun hend =>
        ⟨Fails.perform_eq (.advance hend), Fails.perform_eq (.scanToken hend)⟩
      not_a_number := perform_number_of_none
      run_again := ?_
      tokens_of_fault := fun _ _ _ hfault => (fails_of_perform hfault).tokens_eq }
  · have hfirst : first.InBounds source := (Continues.refl first).inBounds
    exact List.forall_mem_cons.2 ⟨hfirst, fun m hm => (hleads.continues m hm).inBounds⟩
  · intro called hsource
    rw [← hsource]
    exact string_cases called
  · intro hrun
    have hfinished := (finished_performAll_iff history first).2 (.inl hrun)
    exact Fails.perform_eq (.run hfinished)

end LoxSyntax.Scan
