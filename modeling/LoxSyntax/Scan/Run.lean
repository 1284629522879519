import LoxSyntax.Scan.Basic

/-! # A whole scan

`Scan.run` takes tokens from the cursor to the end of the source and closes the list with the end
token. Each round takes at least one character (`scanToken_length_lt`), so a run ends after at
most as many rounds as characters are left. -/

namespace LoxSyntax

namespace Scan

section Length

variable (s : Scan)

@[simp] theorem after_mark : s.mark.after = s.after := rfl

@[simp] theorem after_skip (n : Nat) : (s.skip n).after = s.after.drop n := rfl

@[simp] theorem after_skipWhile (p : Char → Bool) :
    (s.skipWhile p).after = s.after.dropWhile p := rfl

@[simp] theorem after_addToken (kind : Kind) (literal : Literal) :
    (s.addToken kind literal).after = s.after := rfl

@[simp] theorem after_report (problem : Problem) : (s.report problem).after = s.after := rfl

@[simp] theorem after_skipComment : s.skipComment.after = s.after.dropWhile (· ≠ '\n') := rfl

@[simp] theorem after_word : s.word.after = s.after.dropWhile Character.isWord := rfl

theorem length_dropWhile_le (p : Char → Bool) (cs : List Char) :
    (cs.dropWhile p).length ≤ cs.length :=
  (List.dropWhile_suffix p).length_le

theorem length_after_string_le : s.string.after.length ≤ s.after.length := by
  simp only [string]
  split
  · simpa using length_dropWhile_le _ _
  · have := length_dropWhile_le (· ≠ '"') s.after
    simp only [after_addToken, after_skip, after_skipWhile, List.length_drop]
    omega

theorem length_after_skipNumber_le : s.skipNumber.after.length ≤ s.after.length := by
  simp only [skipNumber]
  split
  · have h₁ := length_dropWhile_le Character.isDigit s.after
    have h₂ := length_dropWhile_le Character.isDigit ((s.after.dropWhile Character.isDigit).drop 1)
    simp only [after_skipWhile, after_skip, List.length_drop] at h₂ ⊢
    omega
  · simpa using length_dropWhile_le _ _

theorem after_number : s.number.2.after = s.skipNumber.after := by
  simp only [number]
  split <;> rfl

theorem length_after_scanOpened_le (opening : Opening) :
    (s.scanOpened opening).2.after.length ≤ s.after.length := by
  cases opening with
  | operator => simp only [scanOpened]; split <;> simp
  | slash =>
    simp only [scanOpened]
    split
    · refine Nat.le_trans (length_dropWhile_le _ _) ?_
      simp
    · simp
  | string => exact length_after_string_le s
  | number => simpa [scanOpened, after_number] using length_after_skipNumber_le s
  | word => exact length_dropWhile_le _ _
  | _ => simp [scanOpened]

/-- Taking a token takes at least one character. -/
theorem scanToken_length_lt (h : s.after ≠ []) :
    s.scanToken.2.after.length < s.after.length := by
  obtain ⟨c, rest, hc⟩ := List.exists_cons_of_ne_nil h
  have := length_after_scanOpened_le (s.skip 1) (.of c)
  simp only [scanToken, hc, after_skip, List.drop_succ_cons, List.drop_zero,
    List.length_cons] at this ⊢
  omega

end Length

/-- Takes tokens, each from the cursor on, up to the end of the source. -/
def scanRest (s : Scan) : Except Fault Unit × Scan :=
  if h : s.after = [] then (.ok (), s)
  else
    match hs : s.mark.scanToken with
    | (.ok (), s') =>
      have : s'.after.length < s.after.length := by
        have shorter := scanToken_length_lt s.mark h
        rwa [hs] at shorter
      scanRest s'
    | (.error fault, s') => (.error fault, s')
termination_by s.after.length

/-- Adds the end token, which has an empty lexeme. -/
def addEnd (s : Scan) : Scan :=
  { s with tokens := s.tokens.push ⟨.eof, "", .nil, s.line⟩ }

/-- Takes all tokens from the cursor on and the end token, once. -/
def run (s : Scan) : Except Fault (List Token) × Scan :=
  if s.finished then (.error .alreadyScanned, s)
  else
    match { s with finished := true }.scanRest with
    | (.ok (), s') => (.ok s'.addEnd.tokens.toList, s'.addEnd)
    | (.error fault, s') => (.error fault, s')

end Scan

end LoxSyntax
