import LoxSyntax.Json.Basic
import LoxSyntax.Proofs.Text.Quoted

/-! # Reading back a quoted text

A text between quotation marks ends where it is meant to and is known from what stands there
(`Json.quote_cancel`). The escapes of the characters are a prefix code (`Json.Escapes.cancel`):
a letter after the backslash, four hexadecimal digits for a character of one UTF-16 unit, and two
times four for a character of two, whose first unit is no character. If the units of a pair could stand
in a text by themselves, this would fail (`Json.flatMap_escapeCode_units16`). -/

namespace LoxSyntax

namespace Json

/-- The characters that a letter or the character itself stands for after the backslash. -/
def shortEscapes : List (Char × Char) :=
  [('"', '"'), ('\\', '\\'), ('\n', 'n'), ('\r', 'r'), ('\t', 't'), ('\x08', 'b'), ('\x0c', 'f')]

def unitEscape (unit : Nat) : List Char := '\\' :: 'u' :: Text.hexDigits 4 unit

/-- The escape of a character is one of four forms. -/
inductive Escapes : Char → List Char → Prop
  | short {c letter} : (c, letter) ∈ shortEscapes → Escapes c ['\\', letter]
  | plain {c} : c ≠ '"' → c ≠ '\\' → Escapes c [c]
  | unit {c} : c.toNat < 0x10000 → Escapes c (unitEscape c.toNat)
  | pair {c} : 0x10000 ≤ c.toNat →
      Escapes c (unitEscape (0xD800 + (c.toNat - 0x10000) / 0x400) ++
        unitEscape (0xDC00 + (c.toNat - 0x10000) % 0x400))

variable {c c' : Char} {e e' cs cs' x x' : List Char} {u u' : Nat} {s s' : String}

theorem escapes_escapeChar (c : Char) : Escapes c (escapeChar c) := by
  rw [escapeChar]
  split
  · rename_i h
    rcases Bool.or_eq_true_iff.1 h with h | h
    · exact .short (of_decide_eq_true h ▸ by decide)
    · exact .short (of_decide_eq_true h ▸ by decide)
  rename_i hquoted
  -- the control characters with a short form
  iterate 5
    split
    · rename_i h
      exact .short (h ▸ by decide)
  split
  · simp only [Bool.or_eq_true, decide_eq_true_eq, not_or] at hquoted
    exact .plain hquoted.1 hquoted.2
  · simp only [units16]
    split
    · rename_i h
      simpa [unitEscape] using Escapes.unit h
    · rename_i h
      simpa [unitEscape] using Escapes.pair (Nat.le_of_not_lt h)

theorem unitEscape_cancel (hu : u < 0x10000) (hu' : u' < 0x10000)
    (h : unitEscape u ++ x = unitEscape u' ++ x') : u = u' ∧ x = x' := by
  have hdigits : Text.hexDigits 4 u ++ x = Text.hexDigits 4 u' ++ x' :=
    (List.cons.inj (List.cons.inj h).2).2
  obtain ⟨heq, hx⟩ := List.append_inj hdigits (by rw [Text.length_hexDigits, Text.length_hexDigits])
  have hpow : Nat.pow 16 4 = 0x10000 := rfl
  exact ⟨Text.hexDigits_injective (hpow ▸ hu) (hpow ▸ hu') heq, hx⟩

theorem letter_ne_u : ∀ entry ∈ shortEscapes, entry.2 ≠ 'u' := by decide

theorem eq_of_letter_eq : ∀ entry ∈ shortEscapes, ∀ entry' ∈ shortEscapes,
    entry.2 = entry'.2 → entry.1 = entry'.1 := by decide

/-- No character has the first unit of a pair for its number. -/
theorem toNat_ne_high (c : Char) {n : Nat} (hn : n < 0x100000) : c.toNat ≠ 0xD800 + n / 0x400 := by
  have hvalid : c.toNat < 0xD800 ∨ 0xDFFF < c.toNat ∧ c.toNat < 0x110000 := c.valid
  omega

theorem toNat_sub_lt (c : Char) : c.toNat - 0x10000 < 0x100000 := by
  have hvalid : c.toNat < 0xD800 ∨ 0xDFFF < c.toNat ∧ c.toNat < 0x110000 := c.valid
  omega

theorem Escapes.cancel (h : Escapes c e) (h' : Escapes c' e') (heq : e ++ x = e' ++ x') :
    c = c' ∧ x = x' := by
  cases h with
  | short h =>
    cases h' with
    | short h' =>
      obtain ⟨hletter, hx⟩ := List.cons.inj (List.cons.inj heq).2
      exact ⟨eq_of_letter_eq _ h _ h' hletter, hx⟩
    | plain _ h' => exact absurd (List.cons.inj heq).1.symm h'
    | unit | pair => exact absurd (List.cons.inj (List.cons.inj heq).2).1 (letter_ne_u _ h)
  | plain _ h =>
    cases h' with
    | plain => exact List.cons.inj heq
    | short | unit | pair => exact absurd (List.cons.inj heq).1 h
  | unit h =>
    cases h' with
    | short h' => exact absurd (List.cons.inj (List.cons.inj heq).2).1.symm (letter_ne_u _ h')
    | plain _ h' => exact absurd (List.cons.inj heq).1.symm h'
    | unit h' =>
      obtain ⟨hn, hx⟩ := unitEscape_cancel h h' heq
      exact ⟨Char.toNat_inj.1 hn, hx⟩
    | pair h' =>
      have hlt := toNat_sub_lt c'
      rw [List.append_assoc] at heq
      exact absurd (unitEscape_cancel h (by omega) heq).1 (toNat_ne_high c hlt)
  | pair h =>
    have hlt := toNat_sub_lt c
    cases h' with
    | short h' => exact absurd (List.cons.inj (List.cons.inj heq).2).1.symm (letter_ne_u _ h')
    | plain _ h' => exact absurd (List.cons.inj heq).1.symm h'
    | unit h' =>
      rw [List.append_assoc] at heq
      exact absurd (unitEscape_cancel (by omega) h' heq).1.symm (toNat_ne_high c' hlt)
    | pair h' =>
      have hlt' := toNat_sub_lt c'
      rw [List.append_assoc, List.append_assoc] at heq
      obtain ⟨hhigh, hrest⟩ := unitEscape_cancel (by omega) (by omega) heq
      obtain ⟨hlow, hx⟩ := unitEscape_cancel (by omega) (by omega) hrest
      have hn : c.toNat = c'.toNat := by omega
      exact ⟨Char.toNat_inj.1 hn, hx⟩

/-- The escape of a code point, which may be one unit of a pair and no character. -/
def escapeCode (n : Nat) : List Char := if n.isValidChar then escapeChar (.ofNat n) else unitEscape n

theorem escapeCode_toNat (c : Char) : escapeCode c.toNat = escapeChar c := by
  have hvalid : c.toNat.isValidChar := c.valid
  rw [escapeCode, if_pos hvalid, Char.ofNat_toNat]

theorem escapeChar_of_le (h : 0x7F ≤ c.toNat) : escapeChar c = (units16 c).flatMap unitEscape := by
  have hne (d : Char) (hd : d.toNat < 0x7F) : c ≠ d := by
    rintro rfl
    omega
  have hprintable : ¬ c ≤ '~' := fun hle => by
    have hle : c.toNat ≤ '~'.toNat := hle
    have htilde : '~'.toNat = 0x7E := rfl
    omega
  have hescape : escapeChar c =
      (units16 c).flatMap fun unit => '\\' :: 'u' :: Text.hexDigits 4 unit := by
    simp [escapeChar, hne, hprintable]
  exact hescape

/-- The two units of a character, each escaped by itself, are escaped like the character. -/
theorem flatMap_escapeCode_units16 (h : 0x10000 ≤ c.toNat) :
    (units16 c).flatMap escapeCode = escapeChar c := by
  have hlt := toNat_sub_lt c
  rw [escapeChar_of_le (by omega), units16, if_neg (by omega)]
  have hhigh : ¬ (0xD800 + (c.toNat - 0x10000) / 0x400).isValidChar := by
    simp only [Nat.isValidChar]
    omega
  have hlow : ¬ (0xDC00 + (c.toNat - 0x10000) % 0x400).isValidChar := by
    simp only [Nat.isValidChar]
    omega
  simp only [List.flatMap_cons, List.flatMap_nil, escapeCode, if_neg hhigh, if_neg hlow]

/-- No escape begins with the quotation mark that ends a text. -/
theorem Escapes.ne_mark (h : Escapes c e) : e ++ x ≠ '"' :: x' := by
  intro heq
  cases h with
  | plain h => exact h (List.cons.inj heq).1
  | short | unit | pair => cases (List.cons.inj heq).1

theorem escaped_cancel (h : cs.flatMap escapeChar ++ '"' :: x = cs'.flatMap escapeChar ++ '"' :: x') :
    cs = cs' ∧ x = x' := by
  have hcode : ∀ {c c' : Char} {x x' : List Char},
      escapeChar c ++ x = escapeChar c' ++ x' → c = c' ∧ x = x' := by
    intro c c' x x' heq
    exact (escapes_escapeChar c).cancel (escapes_escapeChar c') heq
  have hend : ∀ {c : Char} {x x' : List Char}, escapeChar c ++ x ≠ '"' :: x' := by
    intro c x x'
    exact (escapes_escapeChar c).ne_mark
  exact Text.delimited_cancel hcode hend h

theorem toList_quote (s : String) :
    (quote s).toList = '"' :: (s.toList.flatMap escapeChar ++ ['"']) := by
  rw [quote, String.toList_ofList]

/-- A quoted text is known from its quotation, whatever follows. -/
theorem quote_cancel (h : (quote s).toList ++ x = (quote s').toList ++ x') : s = s' ∧ x = x' := by
  rw [toList_quote, toList_quote, List.cons_append, List.cons_append, List.append_assoc,
    List.append_assoc] at h
  obtain ⟨hs, hx⟩ := escaped_cancel (List.cons.inj h).2
  exact ⟨String.toList_inj.1 hs, hx⟩

end Json

end LoxSyntax
