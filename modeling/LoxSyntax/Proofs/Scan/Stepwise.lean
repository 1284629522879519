import LoxSyntax.Proofs.Scan.Absorption
import LoxSyntax.Scan.Operation

/-! # A scan character by character

`Scan.run` takes the cursor over whole runs of characters at once. `Scan.runStepwise` takes it there
with `Scan.advance` alone, which takes one character and fails at the end of the source; to see
where to stop it looks one or two characters ahead. The two are equal (`Scan.runStepwise_eq`), so
that a run which succeeds has never asked for a character past the end. -/

namespace LoxSyntax.Scan

/-- Goes on from a step that has not failed. -/
def andThen {α β : Type} (step : Except Fault α × Scan) (next : α → Scan → Except Fault β × Scan) :
    Except Fault β × Scan :=
  match step with
  | (.ok a, s) => next a s
  | (.error fault, s) => (.error fault, s)

variable {s : Scan} {c : Char} {rest : List Char} {p : Char → Bool}

theorem advance_of_cons (h : s.after = c :: rest) : s.advance = (.ok c, s.skip 1) := by
  simp only [advance, h]

theorem length_after_of_advance {s' : Scan} (h : s.advance = (.ok c, s')) :
    s'.after.length < s.after.length := by
  cases hafter : s.after with
  | nil =>
    simp only [advance, hafter] at h
    cases h
  | cons d rest =>
    rw [advance_of_cons hafter] at h
    cases h
    simp [hafter]

/-- Advances as long as the next character satisfies `p`. -/
def advanceWhile (p : Char → Bool) (s : Scan) : Except Fault Unit × Scan :=
  if s.next?.any p then
    match hs : s.advance with
    | (.ok _, s') =>
      have : s'.after.length < s.after.length := length_after_of_advance hs
      advanceWhile p s'
    | (.error fault, s') => (.error fault, s')
  else (.ok (), s)
termination_by s.after.length

/-- Counts the next character if it is a newline. -/
def countNewline (s : Scan) : Scan :=
  { s with line := s.line + if s.next? = some '\n' then 1 else 0 }

/-- Advances to the next double quotation mark or to the end, counting newlines. -/
def advanceToQuote (s : Scan) : Except Fault Unit × Scan :=
  if s.next?.any (· ≠ '"') then
    match hs : s.countNewline.advance with
    | (.ok _, s') =>
      have : s'.after.length < s.countNewline.after.length := length_after_of_advance hs
      advanceToQuote s'
    | (.error fault, s') => (.error fault, s')
  else (.ok (), s)
termination_by s.after.length

def stringStepwise (s : Scan) : Except Fault Unit × Scan :=
  andThen s.advanceToQuote fun _ s =>
    if s.isAtEnd then (.ok (), s.report .unterminatedString)
    else
      andThen s.advance fun _ s =>
        (.ok (), s.addToken .string (.text (.ofList s.lexeme.tail.dropLast)))

/-- Advances over a point and more digits, if a digit follows the point. -/
def advanceFraction (s : Scan) : Except Fault Unit × Scan :=
  if s.next? = some '.' && s.afterNext?.any Character.isDigit then
    andThen s.advance fun _ s => s.advanceWhile Character.isDigit
  else (.ok (), s)

def numberStepwise (s : Scan) : Except Fault Unit × Scan :=
  andThen (s.advanceWhile Character.isDigit) fun _ s =>
    andThen s.advanceFraction fun _ s =>
      match Number.ofText? (.ofList s.lexeme) with
      | some value => (.ok (), s.addToken .number (.number value))
      | none => (.error (.notANumber (.ofList s.lexeme)), s)

def wordStepwise (s : Scan) : Except Fault Unit × Scan :=
  andThen (s.advanceWhile Character.isWord) fun _ s =>
    (.ok (), s.addToken (Kind.ofWord (.ofList s.lexeme)) .nil)

def scanOpenedStepwise (opening : Opening) (s : Scan) : Except Fault Unit × Scan :=
  match opening with
  | .punctuation kind => (.ok (), s.addToken kind .nil)
  | .operator alone withEqual =>
    let (matched, s) := s.matchText "="
    (.ok (), s.addToken (if matched then withEqual else alone) .nil)
  | .slash =>
    let (matched, s) := s.matchText "/"
    if matched then s.advanceWhile (· ≠ '\n') else (.ok (), s.addToken .slash .nil)
  | .blank => (.ok (), s)
  | .newline => (.ok (), { s with line := s.line + 1 })
  | .string => s.stringStepwise
  | .number => s.numberStepwise
  | .word => s.wordStepwise
  | .nothing => (.ok (), s.report .unexpectedCharacter)

def scanTokenStepwise (s : Scan) : Except Fault Unit × Scan :=
  andThen s.advance fun c s => s.scanOpenedStepwise (.of c)

/-! ## Equality with the runs of characters -/

section Runs

variable {ds : List Char}

theorem advanceWhile_of_cons (h : s.after = c :: rest) (hc : p c = true) :
    s.advanceWhile p = (s.skip 1).advanceWhile p := by
  have hnext : s.next?.any p = true := by simp [next?, h, hc]
  rw [advanceWhile, if_pos hnext]
  split
  · rename_i hadvance
    cases (advance_of_cons h).symm.trans hadvance
    rfl
  · rename_i hadvance
    cases (advance_of_cons h).symm.trans hadvance

theorem advanceWhile_of_run (ha : s.after = ds ++ rest) (h : ∀ d ∈ ds, p d)
    (hrest : ∀ d ∈ rest.head?, p d = false) :
    s.advanceWhile p = (.ok (), { s with lexeme := s.lexeme ++ ds, after := rest }) := by
  induction ds generalizing s with
  | nil =>
    obtain rfl : s.after = rest := ha
    have hnext : ¬ s.next?.any p = true := by
      intro hany
      obtain ⟨d, hd, hp⟩ := (Option.any_eq_true ..).1 hany
      simp [hrest d hd] at hp
    rw [advanceWhile, if_neg hnext, List.append_nil]
  | cons d ds ih =>
    obtain ⟨hd, hds⟩ := List.forall_mem_cons.1 h
    have hafter : (s.skip 1).after = ds ++ rest := by simp [ha]
    rw [advanceWhile_of_cons ha hd, ih hafter hds]
    simp [skip, ha]

theorem advanceWhile_eq (p : Char → Bool) (s : Scan) :
    s.advanceWhile p = (.ok (), s.skipWhile p) := by
  obtain ⟨ds, rest, ha, h, hrest⟩ := exists_run p s.after
  rw [advanceWhile_of_run ha h hrest, skipWhile_of_run ha h hrest]

theorem advanceToQuote_of_cons (h : s.after = c :: rest) (hc : c ≠ '"') :
    s.advanceToQuote = (s.countNewline.skip 1).advanceToQuote := by
  have hnext : s.next?.any (· ≠ '"') = true := by simp [next?, h, hc]
  have hcounted : s.countNewline.advance = (.ok c, s.countNewline.skip 1) := advance_of_cons h
  rw [advanceToQuote, if_pos hnext]
  split
  · rename_i hadvance
    cases hcounted.symm.trans hadvance
    rfl
  · rename_i hadvance
    cases hcounted.symm.trans hadvance

theorem advanceToQuote_of_run (ha : s.after = ds ++ rest) (h : ∀ d ∈ ds, d ≠ '"')
    (hrest : ∀ d ∈ rest.head?, d = '"') :
    s.advanceToQuote =
      (.ok (), { s with
        lexeme := s.lexeme ++ ds
        after := rest
        line := s.line + ds.count '\n' }) := by
  induction ds generalizing s with
  | nil =>
    obtain rfl : s.after = rest := ha
    have hnext : ¬ s.next?.any (· ≠ '"') = true := by
      intro hany
      obtain ⟨d, hd, hp⟩ := (Option.any_eq_true ..).1 hany
      simp [hrest d hd] at hp
    rw [advanceToQuote, if_neg hnext, List.append_nil]
    rfl
  | cons d ds ih =>
    obtain ⟨hd, hds⟩ := List.forall_mem_cons.1 h
    have hafter : (s.countNewline.skip 1).after = ds ++ rest := by simp [countNewline, ha]
    rw [advanceToQuote_of_cons ha hd, ih hafter hds]
    simp [countNewline, next?, skip, ha, List.count_cons, Nat.add_assoc,
      Nat.add_comm (List.count _ _)]

end Runs

theorem stringStepwise_eq (s : Scan) : s.stringStepwise = (.ok (), s.string) := by
  obtain ⟨body, rest, ha, hbody, hrest⟩ := exists_run (· ≠ '"') s.after
  have hquote : s.advanceToQuote = _ :=
    advanceToQuote_of_run ha (by simpa using hbody) (by simpa using hrest)
  have htake : s.after.takeWhile (· ≠ '"') = body := by rw [ha, takeWhile_append_stop hbody hrest]
  rw [stringStepwise, hquote, Scan.string, htake, skipWhile_of_run ha hbody hrest]
  cases rest with
  | nil => rfl
  | cons d rest => rfl

theorem advanceFraction_eq (s : Scan) :
    (s.skipWhile Character.isDigit).advanceFraction = (.ok (), s.skipNumber) := by
  simp only [advanceFraction, skipNumber]
  split
  · rename_i hpoint
    obtain ⟨rest, hafter⟩ := List.head?_eq_some_iff.1
      (of_decide_eq_true (Bool.and_eq_true_iff.1 hpoint).1)
    rw [advance_of_cons hafter]
    exact advanceWhile_eq _ _
  · rfl

theorem numberStepwise_eq (s : Scan) : s.numberStepwise = s.number := by
  cases hvalue : Number.ofText? (.ofList s.skipNumber.lexeme) with
  | none => simp only [numberStepwise, advanceWhile_eq, andThen, advanceFraction_eq, number, hvalue]
  | some value =>
    simp only [numberStepwise, advanceWhile_eq, andThen, advanceFraction_eq, number, hvalue]

theorem wordStepwise_eq (s : Scan) : s.wordStepwise = (.ok (), s.word) := by
  simp only [wordStepwise, advanceWhile_eq, andThen, word]

theorem matchText_singleton (c : Char) (s : Scan) :
    s.matchText (String.singleton c) =
      if s.next? = some c then (true, s.skip 1) else (false, s) := by
  have hiff : s.next?.map String.singleton = some (String.singleton c) ↔ s.next? = some c := by
    simp
  simp only [matchText, hiff]

theorem scanOpenedStepwise_eq (opening : Opening) (s : Scan) :
    s.scanOpenedStepwise opening = s.scanOpened opening := by
  cases opening with
  | operator alone withEqual =>
    simp only [scanOpenedStepwise, scanOpened]
    rw [show "=" = String.singleton '=' from rfl, matchText_singleton]
    split
    · rfl
    · rfl
  | slash =>
    simp only [scanOpenedStepwise, scanOpened]
    rw [show "/" = String.singleton '/' from rfl, matchText_singleton]
    split
    · exact advanceWhile_eq _ _
    · rfl
  | string => exact stringStepwise_eq s
  | number => exact numberStepwise_eq s
  | word => exact wordStepwise_eq s
  | _ => rfl

theorem scanTokenStepwise_eq (s : Scan) : s.scanTokenStepwise = s.scanToken := by
  cases h : s.after with
  | nil => simp only [scanTokenStepwise, scanToken, advance, h, andThen]
  | cons c rest =>
    rw [scanTokenStepwise, advance_of_cons h, scanToken_of_cons h]
    exact scanOpenedStepwise_eq _ _

/-! ## Whole scans -/

def scanRestStepwise (s : Scan) : Except Fault Unit × Scan :=
  if h : s.isAtEnd = true then (.ok (), s)
  else
    match hs : s.mark.scanTokenStepwise with
    | (.ok (), s') =>
      have : s'.after.length < s.after.length := by
        have shorter := scanToken_length_lt s.mark (by simpa [isAtEnd] using h)
        rwa [← scanTokenStepwise_eq, hs] at shorter
      scanRestStepwise s'
    | (.error fault, s') => (.error fault, s')
termination_by s.after.length

def runStepwise (s : Scan) : Except Fault (List Token) × Scan :=
  if s.finished then (.error .alreadyScanned, s)
  else
    andThen { s with finished := true }.scanRestStepwise fun _ s =>
      (.ok s.addEnd.tokens.toList, s.addEnd)

theorem scanRestStepwise_eq (s : Scan) : s.scanRestStepwise = s.scanRest := by
  fun_induction scanRest s with
  | case1 s h => rw [scanRestStepwise, dif_pos (by simp [isAtEnd, h])]
  | case2 s h s' hs _ ih =>
    rw [scanRestStepwise, dif_neg (by simpa [isAtEnd] using h)]
    split
    · rename_i heq
      cases (scanTokenStepwise_eq s.mark ▸ hs).symm.trans heq
      exact ih
    · rename_i heq
      cases (scanTokenStepwise_eq s.mark ▸ hs).symm.trans heq
  | case3 s h fault s' hs =>
    rw [scanRestStepwise, dif_neg (by simpa [isAtEnd] using h)]
    split
    · rename_i heq
      cases (scanTokenStepwise_eq s.mark ▸ hs).symm.trans heq
    · rename_i heq
      cases (scanTokenStepwise_eq s.mark ▸ hs).symm.trans heq
      rfl

theorem runStepwise_eq (s : Scan) : s.runStepwise = s.run := by
  simp only [runStepwise, run, scanRestStepwise_eq]
  split
  · rfl
  · generalize scanRest _ = result
    obtain ⟨fault | ⟨⟩, s'⟩ := result
    · rfl
    · rfl

end LoxSyntax.Scan
