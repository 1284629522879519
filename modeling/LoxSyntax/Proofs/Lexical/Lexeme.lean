import LoxSyntax.Scan.Opening

/-! # The lexical grammar

`Lexeme cls text` says that a text belongs to a lexical class; it is the documented lexical grammar,
without a scanner. The first character of a lexeme decides what may follow it
(`Lexeme.continues`), so a text is a lexeme of one class only (`Lexeme.class_unique`). -/

namespace LoxSyntax

inductive LexicalClass
  | punctuation | operator | slash | comment | blank | newline | string | number | word
  deriving DecidableEq

/-- No lexeme of the class contains a newline. -/
def LexicalClass.isOneLine : LexicalClass → Bool
  | string | newline => false
  | _ => true

inductive Lexeme : LexicalClass → List Char → Prop
  | punctuation {c kind} : Kind.ofPunctuation? c = some kind → Lexeme .punctuation [c]
  | operator {c kinds} : Kind.ofOperator? c = some kinds → Lexeme .operator [c]
  | operatorEqual {c kinds} : Kind.ofOperator? c = some kinds → Lexeme .operator [c, '=']
  | slash : Lexeme .slash ['/']
  | comment {body} : '\n' ∉ body → Lexeme .comment ('/' :: '/' :: body)
  | blank {c} : Character.isBlank c → Lexeme .blank [c]
  | newline : Lexeme .newline ['\n']
  | string {body} : '"' ∉ body → Lexeme .string ('"' :: (body ++ ['"']))
  | integer {c digits} : Character.isDigit c → (∀ d ∈ digits, Character.isDigit d) →
      Lexeme .number (c :: digits)
  | decimal {c digits d fraction} : Character.isDigit c → (∀ d ∈ digits, Character.isDigit d) →
      Character.isDigit d → (∀ d ∈ fraction, Character.isDigit d) →
      Lexeme .number (c :: (digits ++ '.' :: d :: fraction))
  | word {c cs} : Character.isLetter c → (∀ d ∈ cs, Character.isWord d) → Lexeme .word (c :: cs)

/-- A character that occurs in tokens other than strings. -/
def Character.inToken (c : Char) : Bool :=
  isWord c || (Kind.ofPunctuation? c).isSome || (Kind.ofOperator? c).isSome || c = '/'

/-! ## First characters -/

section FirstCharacter

variable {α : Type} {p : Char → Bool} {c : Char} {table : List (Char × α)}

theorem ne_of_apart {d : Char} (hc : p c = true) (hd : p d = false) : c ≠ d := by
  rintro rfl
  simp [hc] at hd

theorem lookup_eq_none_of_apart (hc : p c = true) (h : ∀ entry ∈ table, p entry.1 = false) :
    table.lookup c = none := by
  rw [List.lookup_eq_none_iff]
  intro entry hentry
  simpa using ne_of_apart hc (h entry hentry)

theorem isDigit_eq_false_of_isLetter (h : Character.isLetter c = true) :
    Character.isDigit c = false := by
  simp only [Character.isLetter, Bool.or_eq_true, decide_eq_true_eq] at h
  rcases h with h | rfl
  · have hlow : 'A'.val ≤ c.val ∨ 'a'.val ≤ c.val := by
      rcases Bool.or_eq_true_iff.1 h with h | h
      · exact .inl (of_decide_eq_true h).1
      · exact .inr (of_decide_eq_true (Bool.and_eq_true_iff.1 h).1)
    rw [Bool.eq_false_iff]
    intro hdigit
    have hhigh : c.val.toNat ≤ 57 := (Char.isDigit_iff_toNat.1 hdigit).2
    rcases hlow with hlow | hlow
    · exact absurd (Nat.le_trans (UInt32.le_iff_toNat_le.1 hlow) hhigh) (by decide)
    · exact absurd (Nat.le_trans (UInt32.le_iff_toNat_le.1 hlow) hhigh) (by decide)
  · decide

end FirstCharacter

namespace Opening

variable {c : Char} {kind alone withEqual : Kind}

theorem of_punctuation (h : Kind.ofPunctuation? c = some kind) : of c = .punctuation kind := by
  simp only [of, h]

theorem of_operator (h : Kind.ofOperator? c = some (alone, withEqual)) :
    of c = .operator alone withEqual := by
  have hp : Kind.ofPunctuation? c = none := by
    obtain ⟨before, after, htable, -⟩ := List.lookup_eq_some_iff.mp h
    have hmem : (c, alone, withEqual) ∈ Kind.operators := htable ▸ by simp
    have apart : ∀ entry ∈ Kind.operators, Kind.ofPunctuation? entry.1 = none := by decide
    exact apart _ hmem
  simp only [of, hp, h]

theorem of_blank (h : Character.isBlank c = true) : of c = .blank := by
  have hc : c = ' ' ∨ c = '\r' ∨ c = '\t' := by simpa [Character.isBlank, or_assoc] using h
  rcases hc with rfl | rfl | rfl
  · rfl
  · rfl
  · rfl

/-- A character of a class that is apart from everything tested first. -/
theorem of_class {p : Char → Bool} (hc : p c = true)
    (hp : ∀ entry ∈ Kind.punctuation, p entry.1 = false)
    (ho : ∀ entry ∈ Kind.operators, p entry.1 = false)
    (hb : p '/' = false ∧ p ' ' = false ∧ p '\r' = false ∧ p '\t' = false ∧ p '\n' = false ∧
      p '"' = false) :
    of c = if Character.isDigit c then number else if Character.isLetter c then word else nothing := by
  obtain ⟨hslash, hspace, hreturn, htab, hnewline, hquote⟩ := hb
  have hp' : Kind.ofPunctuation? c = none := lookup_eq_none_of_apart hc hp
  have ho' : Kind.ofOperator? c = none := lookup_eq_none_of_apart hc ho
  have hblank : Character.isBlank c = false := by
    simp [Character.isBlank, ne_of_apart hc hspace, ne_of_apart hc hreturn, ne_of_apart hc htab]
  simp only [of, hp', ho', hblank, if_neg (ne_of_apart hc hslash), if_neg (ne_of_apart hc hnewline),
    if_neg (ne_of_apart hc hquote), Bool.false_eq_true, if_false]

theorem of_digit (h : Character.isDigit c = true) : of c = .number := by
  rw [of_class h (by decide) (by decide) ⟨rfl, rfl, rfl, rfl, rfl, rfl⟩, if_pos h]

theorem of_letter (h : Character.isLetter c = true) : of c = .word := by
  rw [of_class h (by decide) (by decide) ⟨rfl, rfl, rfl, rfl, rfl, rfl⟩,
    isDigit_eq_false_of_isLetter h, if_neg Bool.false_ne_true, if_pos h]

/-- What is known of a character with the opening. -/
def Admits (c : Char) : Opening → Prop
  | .punctuation kind => Kind.ofPunctuation? c = some kind
  | .operator alone withEqual => Kind.ofOperator? c = some (alone, withEqual)
  | .slash => c = '/'
  | .blank => Character.isBlank c
  | .newline => c = '\n'
  | .string => c = '"'
  | .number => Character.isDigit c
  | .word => Character.isLetter c
  | .nothing => True

theorem admits_of (c : Char) : (of c).Admits c := by
  rw [of]
  split
  · assumption
  · assumption
  · repeat' split
    all_goals first | assumption | trivial

/-- What may follow the first character of a lexeme. -/
def Continues : Opening → LexicalClass → List Char → Prop
  | .punctuation _, .punctuation, cs => cs = []
  | .operator _ _, .operator, cs => cs = [] ∨ cs = ['=']
  | .slash, .slash, cs => cs = []
  | .slash, .comment, cs => ∃ body, cs = '/' :: body ∧ '\n' ∉ body
  | .blank, .blank, cs => cs = []
  | .newline, .newline, cs => cs = []
  | .string, .string, cs => ∃ body, cs = body ++ ['"'] ∧ '"' ∉ body
  | .number, .number, cs =>
    (∀ d ∈ cs, Character.isDigit d) ∨
      ∃ digits d fraction, cs = digits ++ '.' :: d :: fraction ∧
        (∀ d ∈ digits, Character.isDigit d) ∧ Character.isDigit d ∧
        ∀ d ∈ fraction, Character.isDigit d
  | .word, .word, cs => ∀ d ∈ cs, Character.isWord d
  | _, _, _ => False

end Opening

namespace Lexeme

variable {c : Char} {cs : List Char} {cls cls' : LexicalClass} {text : List Char}

theorem ne_nil (h : Lexeme cls text) : text ≠ [] := by
  cases h <;> simp

theorem continues (h : Lexeme cls (c :: cs)) : (Opening.of c).Continues cls cs := by
  cases h with
  | punctuation h => simp [Opening.of_punctuation h, Opening.Continues]
  | operator h => simp [Opening.of_operator h, Opening.Continues]
  | operatorEqual h => simp [Opening.of_operator h, Opening.Continues]
  | slash => rfl
  | comment h => exact ⟨_, rfl, h⟩
  | blank h => simp [Opening.of_blank h, Opening.Continues]
  | newline => rfl
  | string h => exact ⟨_, rfl, h⟩
  | integer hc h =>
    rw [Opening.of_digit hc]
    exact .inl h
  | decimal hc h hd hf =>
    rw [Opening.of_digit hc]
    exact .inr ⟨_, _, _, rfl, h, hd, hf⟩
  | word hc h =>
    rw [Opening.of_letter hc]
    exact h

/-- The characters of tokens that are no strings. -/
theorem inToken_of_mem (h : Lexeme cls text)
    (hcls : cls ∈ [.punctuation, .operator, .slash, .number, .word]) :
    ∀ d ∈ text, Character.inToken d = true := by
  have hdigits : ∀ ds : List Char, (∀ d ∈ ds, Character.isDigit d) →
      ∀ d ∈ ds, Character.inToken d = true := by
    intro ds hds d hd
    simp [Character.inToken, Character.isWord, hds d hd]
  cases h with
  | punctuation h => simp [Character.inToken, h]
  | operator h => simp [Character.inToken, h]
  | operatorEqual h =>
    have hequal : Character.inToken '=' = true := rfl
    refine List.forall_mem_cons.2 ⟨by simp [Character.inToken, h], ?_⟩
    exact List.forall_mem_singleton.2 hequal
  | slash =>
    have hslash : Character.inToken '/' = true := rfl
    exact List.forall_mem_singleton.2 hslash
  | integer hc h => exact hdigits _ (List.forall_mem_cons.2 ⟨hc, h⟩)
  | decimal hc h hd hf =>
    have hwhole := hdigits _ (List.forall_mem_cons.2 ⟨hc, h⟩)
    have hfraction := hdigits _ (List.forall_mem_cons.2 ⟨hd, hf⟩)
    exact List.forall_mem_append.2 ⟨hwhole, List.forall_mem_cons.2 ⟨by decide, hfraction⟩⟩
  | word hc h =>
    refine List.forall_mem_cons.2 ⟨by simp [Character.inToken, Character.isWord, hc], ?_⟩
    intro d hd
    simp [Character.inToken, h d hd]
  | string | comment | blank | newline => simp at hcls

theorem newline_not_mem (h : Lexeme cls text) (hcls : cls.isOneLine) : '\n' ∉ text := by
  intro hmem
  cases cls with
  | comment =>
    obtain ⟨body, rfl, hbody⟩ : ∃ body, text = '/' :: '/' :: body ∧ '\n' ∉ body := by
      cases h with
      | comment h => exact ⟨_, rfl, h⟩
    exact hbody (by simpa using hmem)
  | blank =>
    obtain ⟨c, rfl, hc⟩ : ∃ c, text = [c] ∧ Character.isBlank c := by
      cases h with
      | blank h => exact ⟨_, rfl, h⟩
    cases List.mem_singleton.1 hmem
    cases hc
  | string | newline => cases hcls
  | punctuation | operator | slash | number | word =>
    exact absurd (h.inToken_of_mem (by simp) _ hmem) (by decide)

/-- A text belongs to one class at most. -/
theorem class_unique (h : Lexeme cls text) (h' : Lexeme cls' text) : cls = cls' := by
  obtain ⟨c, cs, rfl⟩ := List.exists_cons_of_ne_nil h.ne_nil
  have hcs := h.continues
  have hcs' := h'.continues
  generalize Opening.of c = opening at hcs hcs'
  cases opening <;> cases cls <;> cases cls' <;> simp_all [Opening.Continues]

end Lexeme

end LoxSyntax
