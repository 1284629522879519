import LoxSyntax.Proofs.Lexical.Munch
import LoxSyntax.Proofs.Reporter.Reports
import LoxSyntax.Scan.Run

/-! # One step of a scan

A scan that takes a token takes the segment cut from the front of the text before it, and nothing
else changes but what the segment says (`Scan.absorb`): its token and its diagnostic are added and
its newlines counted. -/

namespace LoxSyntax.Scan

/-- The scan after the segment. -/
def absorb (segment : Segment) (s : Scan) : Scan where
  before := s.before
  lexeme := segment.text
  after := s.after.drop segment.text.length
  line := s.line + segment.newlines
  tokens := s.tokens ++ (segment.token? (s.line + segment.newlines)).toArray
  reporter := s.reporter.reportAll (segment.diagnostic? (s.line + segment.newlines)).toList
  finished := s.finished

variable {s : Scan} {cls : LexicalClass} {text : List Char} {c : Char} {rest : List Char}

theorem absorb_of_lexeme (h : Lexeme cls text) (hcls : cls.isOneLine) :
    s.absorb ⟨.lexeme cls, text⟩ =
      { s with
        lexeme := text
        after := s.after.drop text.length
        tokens := s.tokens ++ (Segment.token? s.line ⟨.lexeme cls, text⟩).toArray } := by
  simp [absorb, Segment.diagnostic?, Segment.problem?, h.newlines_eq_zero hcls]

theorem skipWhile_of_run {p : Char → Bool} {ds : List Char} (ha : s.after = ds ++ rest)
    (h : ∀ d ∈ ds, p d) (hrest : ∀ d ∈ rest.head?, p d = false) :
    s.skipWhile p = { s with lexeme := s.lexeme ++ ds, after := rest } := by
  rw [skipWhile, ha, takeWhile_append_stop h hrest, dropWhile_append_stop h hrest]

theorem skipNumber_of_integer {ds : List Char} (ha : s.after = ds ++ rest)
    (h : ∀ d ∈ ds, Character.isDigit d) (hrest : ∀ d ∈ rest.head?, Character.isDigit d = false)
    (hpoint : ∀ d more, rest = '.' :: d :: more → Character.isDigit d = false) :
    s.skipNumber = { s with lexeme := s.lexeme ++ ds, after := rest } := by
  rw [skipNumber, skipWhile_of_run ha h hrest, if_neg]
  rcases rest with _ | ⟨d, _ | ⟨e, more⟩⟩
  · simp [next?]
  · simp [afterNext?]
  · simp only [next?, afterNext?]
    simpa using fun hd : d = '.' => hpoint e more (by rw [hd])

theorem skipNumber_of_decimal {d : Char} {ds fraction : List Char}
    (ha : s.after = ds ++ '.' :: d :: (fraction ++ rest)) (h : ∀ d ∈ ds, Character.isDigit d)
    (hd : Character.isDigit d = true) (hf : ∀ d ∈ fraction, Character.isDigit d)
    (hrest : ∀ d ∈ rest.head?, Character.isDigit d = false) :
    s.skipNumber =
      { s with lexeme := s.lexeme ++ (ds ++ '.' :: d :: fraction), after := rest } := by
  rw [skipNumber, skipWhile_of_run ha h (by rintro d ⟨⟩; rfl),
    if_pos (by simp [next?, afterNext?, hd]),
    skipWhile_of_run rfl (List.forall_mem_cons.2 ⟨hd, hf⟩) hrest]
  simp [skip]

theorem number_of_lexeme (htext : s.skipNumber.lexeme = text) (h : Lexeme .number text) :
    s.number = (.ok (), s.skipNumber.addToken .number
      (.number (.signed false (Decimal.ofLexeme text).nearest))) := by
  simp only [number, htext, h.ofText?_eq]

theorem scanToken_of_cons (h : s.after = c :: rest) :
    s.scanToken = (s.skip 1).scanOpened (.of c) := by
  simp only [scanToken, h]

/-- The result is that of the scan taking the segment cut from the front of its text. -/
def Absorbs (s : Scan) (result : Except Fault Unit × Scan) : Prop :=
  ∃ segment, Segment.Cut s.after segment ∧ result = (.ok (), s.absorb segment)

section Opened

variable (hl : s.lexeme = []) (ha : s.after = c :: rest)
include hl ha

theorem absorbs_punctuation {kind : Kind} (h : Kind.ofPunctuation? c = some kind) :
    s.Absorbs ((s.skip 1).scanOpened (.punctuation kind)) := by
  refine ⟨⟨.lexeme .punctuation, [c]⟩, ha ▸ .punctuation h, ?_⟩
  rw [absorb_of_lexeme (.punctuation h) rfl]
  simp [scanOpened, skip, addToken, hl, ha, h, Segment.token?, Segment.kind?, Segment.literal]

theorem absorbs_operator {alone withEqual : Kind}
    (h : Kind.ofOperator? c = some (alone, withEqual)) :
    s.Absorbs ((s.skip 1).scanOpened (.operator alone withEqual)) := by
  by_cases hnext : rest.head? = some '='
  · obtain ⟨more, rfl⟩ := List.head?_eq_some_iff.1 hnext
    refine ⟨⟨.lexeme .operator, [c, '=']⟩, ha ▸ .operatorEqual h, ?_⟩
    rw [absorb_of_lexeme (.operatorEqual h) rfl]
    simp [scanOpened, next?, skip, addToken, hl, ha, h, Segment.token?, Segment.kind?,
      Segment.literal]
  · refine ⟨⟨.lexeme .operator, [c]⟩, ha ▸ .operator h hnext, ?_⟩
    rw [absorb_of_lexeme (.operator h) rfl]
    simp [scanOpened, next?, hnext, skip, addToken, hl, ha, h, Segment.token?, Segment.kind?,
      Segment.literal]

theorem absorbs_slash (hc : c = '/') : s.Absorbs ((s.skip 1).scanOpened .slash) := by
  subst hc
  by_cases hnext : rest.head? = some '/'
  · obtain ⟨more, rfl⟩ := List.head?_eq_some_iff.1 hnext
    obtain ⟨body, stop, rfl, hbody, hstop⟩ := exists_run (· ≠ '\n') more
    have hbody' : '\n' ∉ body := fun hmem => by simpa using hbody _ hmem
    refine ⟨⟨.lexeme .comment, '/' :: '/' :: body⟩, ha ▸ .comment hbody' (by simpa using hstop), ?_⟩
    have hslash : (s.skip 1).next? = some '/' := by simp [next?, ha]
    have hafter : ((s.skip 1).skip 1).after = body ++ stop := by simp [ha]
    rw [absorb_of_lexeme (.comment hbody') rfl, scanOpened, if_pos hslash,
      skipComment, skipWhile_of_run hafter hbody hstop]
    simp [skip, hl, ha, Segment.token?, Segment.kind?]
  · refine ⟨⟨.lexeme .slash, ['/']⟩, ha ▸ .slash hnext, ?_⟩
    rw [absorb_of_lexeme .slash rfl]
    simp [scanOpened, next?, hnext, skip, addToken, hl, ha, Segment.token?, Segment.kind?,
      Segment.literal]

theorem absorbs_blank (hc : Character.isBlank c = true) :
    s.Absorbs ((s.skip 1).scanOpened .blank) := by
  refine ⟨⟨.lexeme .blank, [c]⟩, ha ▸ .blank hc, ?_⟩
  rw [absorb_of_lexeme (.blank hc) rfl]
  simp [scanOpened, skip, hl, ha, Segment.token?, Segment.kind?]

theorem absorbs_newline (hc : c = '\n') : s.Absorbs ((s.skip 1).scanOpened .newline) := by
  subst hc
  refine ⟨⟨.lexeme .newline, ['\n']⟩, ha ▸ .newline, ?_⟩
  simp [scanOpened, absorb, skip, hl, ha, Segment.newlines, Segment.token?, Segment.kind?,
    Segment.diagnostic?, Segment.problem?]

theorem absorbs_string (hc : c = '"') : s.Absorbs ((s.skip 1).scanOpened .string) := by
  subst hc
  obtain ⟨body, stop, rfl, hbody, hstop⟩ := exists_run (· ≠ '"') rest
  have hquote : '"' ∉ body := fun hmem => by simpa using hbody _ hmem
  have hafter : (s.skip 1).after = body ++ stop := by simp [ha]
  have htake : (s.skip 1).after.takeWhile (· ≠ '"') = body := by
    rw [hafter, takeWhile_append_stop hbody hstop]
  rw [scanOpened, Scan.string, htake, skipWhile_of_run hafter hbody hstop]
  cases stop with
  | nil =>
    rw [List.append_nil] at ha
    refine ⟨⟨.unterminated, '"' :: body⟩, ha ▸ .unterminated_of_not_mem hquote, ?_⟩
    simp [absorb, isAtEnd, report, skip, hl, ha, Segment.newlines, Segment.token?,
      Segment.kind?, Segment.diagnostic?, Segment.problem?]
  | cons d stop =>
    obtain rfl : d = '"' := by simpa using hstop d rfl
    refine ⟨⟨.lexeme .string, '"' :: (body ++ ['"'])⟩, ha ▸ .string hquote, ?_⟩
    simp [absorb, isAtEnd, addToken, skip, hl, ha, Segment.newlines, Segment.token?, Segment.kind?,
      Segment.literal, Segment.diagnostic?, Segment.problem?]

theorem absorbs_number (hc : Character.isDigit c = true) :
    s.Absorbs ((s.skip 1).scanOpened .number) := by
  obtain ⟨ds, stop, rfl, hds, hstop⟩ := exists_run Character.isDigit rest
  have hafter : (s.skip 1).after = ds ++ stop := by simp [ha]
  by_cases hpoint : ∃ d more, stop = '.' :: d :: more ∧ Character.isDigit d
  · obtain ⟨d, more, rfl, hd⟩ := hpoint
    obtain ⟨fraction, stop, rfl, hf, hstop'⟩ := exists_run Character.isDigit more
    have hlexeme : Lexeme .number (c :: (ds ++ '.' :: d :: fraction)) := .decimal hc hds hd hf
    refine ⟨⟨.lexeme .number, c :: (ds ++ '.' :: d :: fraction)⟩, ha ▸ .decimal hc hds hd hf hstop',
      ?_⟩
    have hskip := skipNumber_of_decimal hafter hds hd hf hstop'
    have htext : (s.skip 1).skipNumber.lexeme = c :: (ds ++ '.' :: d :: fraction) := by
      rw [hskip]
      simp [skip, hl, ha]
    rw [absorb_of_lexeme hlexeme rfl, scanOpened,
      number_of_lexeme htext hlexeme, hskip]
    simp [addToken, skip, hl, ha, Segment.token?, Segment.kind?, Segment.literal]
  · have hlexeme : Lexeme .number (c :: ds) := .integer hc hds
    have hpoint' : ∀ d more, stop = '.' :: d :: more → Character.isDigit d = false :=
      fun d more heq => Bool.not_eq_true _ ▸ fun hd => hpoint ⟨d, more, heq, hd⟩
    refine ⟨⟨.lexeme .number, c :: ds⟩, ha ▸ .integer hc hds hstop hpoint', ?_⟩
    have hskip := skipNumber_of_integer hafter hds hstop hpoint'
    have htext : (s.skip 1).skipNumber.lexeme = c :: ds := by
      rw [hskip]
      simp [skip, hl, ha]
    rw [absorb_of_lexeme hlexeme rfl, scanOpened,
      number_of_lexeme htext hlexeme, hskip]
    simp [addToken, skip, hl, ha, Segment.token?, Segment.kind?, Segment.literal]

theorem absorbs_word (hc : Character.isLetter c = true) :
    s.Absorbs ((s.skip 1).scanOpened .word) := by
  obtain ⟨ds, stop, rfl, hds, hstop⟩ := exists_run Character.isWord rest
  have hafter : (s.skip 1).after = ds ++ stop := by simp [ha]
  refine ⟨⟨.lexeme .word, c :: ds⟩, ha ▸ .word hc hds hstop, ?_⟩
  rw [absorb_of_lexeme (.word hc hds) rfl, scanOpened, word,
    skipWhile_of_run hafter hds hstop]
  simp [skip, addToken, hl, ha, Segment.token?, Segment.kind?, Segment.literal]

theorem absorbs_nothing (hc : Opening.of c = .nothing) :
    s.Absorbs ((s.skip 1).scanOpened .nothing) := by
  have hne : c ≠ '\n' := by
    rintro rfl
    cases hc
  refine ⟨⟨.unexpected, [c]⟩, ha ▸ .unexpected_of_nothing hc, ?_⟩
  simp [scanOpened, absorb, skip, report, hl, ha, hne, Segment.newlines,
    Segment.token?, Segment.kind?, Segment.diagnostic?, Segment.problem?]

/-- A step of a scan takes the segment cut from the front of the text. -/
theorem absorbs_scanToken : s.Absorbs s.scanToken := by
  rw [scanToken_of_cons ha]
  have hadmits := Opening.admits_of c
  cases hopening : Opening.of c <;> rw [hopening] at hadmits
  case nothing => exact absorbs_nothing hl ha hopening
  case punctuation kind => exact absorbs_punctuation hl ha hadmits
  case operator alone withEqual => exact absorbs_operator hl ha hadmits
  case slash => exact absorbs_slash hl ha hadmits
  case blank => exact absorbs_blank hl ha hadmits
  case newline => exact absorbs_newline hl ha hadmits
  case string => exact absorbs_string hl ha hadmits
  case number => exact absorbs_number hl ha hadmits
  case word => exact absorbs_word hl ha hadmits

end Opened

end LoxSyntax.Scan
