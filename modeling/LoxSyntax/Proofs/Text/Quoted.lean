import LoxSyntax.Text.Quoted

/-! # Reading back a text between marks

A text between two marks is known from what stands there, if the escapes of its characters are a
prefix code and none of them begins with the mark (`Text.delimited_cancel`). The escapes of
`Text.quote` are one (`Text.Escapes.cancel`), whichever characters are printable, and the first
character of a quotation is its mark, so any text is known from its quotation with whatever follows
(`Text.quote_cancel`). -/

namespace LoxSyntax.Text

/-! ## Hexadecimal digits -/

theorem length_hexDigits (width n : Nat) : (hexDigits width n).length = width := by
  induction width generalizing n with
  | zero => rfl
  | succ width ih => rw [hexDigits, List.length_append, ih, List.length_singleton]

theorem digitChar_injective : ∀ m < 16, ∀ n < 16, Nat.digitChar m = Nat.digitChar n → m = n := by
  decide

theorem hexDigits_injective {width m n : Nat} (hm : m < Nat.pow 16 width) (hn : n < Nat.pow 16 width)
    (h : hexDigits width m = hexDigits width n) : m = n := by
  induction width generalizing m n with
  | zero =>
    rw [Nat.lt_one_iff.1 hm, Nat.lt_one_iff.1 hn]
  | succ width ih =>
    obtain ⟨hinit, hlast⟩ := List.append_inj' h rfl
    have hmod : m % 16 = n % 16 :=
      digitChar_injective _ (Nat.mod_lt _ (by decide)) _ (Nat.mod_lt _ (by decide))
        (List.cons.inj hlast).1
    have hdiv : m / 16 = n / 16 :=
      ih (Nat.div_lt_of_lt_mul (Nat.mul_comm .. ▸ hm)) (Nat.div_lt_of_lt_mul (Nat.mul_comm .. ▸ hn))
        hinit
    omega

/-! ## Codes up to a mark -/

section Delimited

variable {code : Char → List Char} {mark : Char} {cs cs' x x' : List Char}

/-- What is written in a prefix code ends at the first mark that begins no code word. -/
theorem delimited_cancel
    (hcode : ∀ {c c' x x'}, code c ++ x = code c' ++ x' → c = c' ∧ x = x')
    (hmark : ∀ {c x x'}, code c ++ x ≠ mark :: x')
    (h : cs.flatMap code ++ mark :: x = cs'.flatMap code ++ mark :: x') : cs = cs' ∧ x = x' := by
  induction cs generalizing cs' with
  | nil =>
    cases cs' with
    | nil => exact ⟨rfl, (List.cons.inj h).2⟩
    | cons c' cs' =>
      rw [List.flatMap_cons, List.append_assoc] at h
      exact absurd h.symm hmark
  | cons c cs ih =>
    rw [List.flatMap_cons, List.append_assoc] at h
    cases cs' with
    | nil => exact absurd h hmark
    | cons c' cs' =>
      rw [List.flatMap_cons, List.append_assoc] at h
      obtain ⟨rfl, hrest⟩ := hcode h
      obtain ⟨rfl, hx⟩ := ih hrest
      exact ⟨rfl, hx⟩

end Delimited

/-! ## Escapes -/

/-- The marks that stand around a quoted text. -/
def marks : List Char := ['\'', '"']

/-- The characters that a letter or the character itself stands for after the backslash. -/
def shortEscapes (mark : Char) : List (Char × Char) :=
  [(mark, mark), ('\\', '\\'), ('\n', 'n'), ('\r', 'r'), ('\t', 't')]

/-- The letters of the hexadecimal escapes, and how many digits stand behind each of them. -/
def hexWidths : List (Char × Nat) := [('x', 2), ('u', 4), ('U', 8)]

/-- The escape of a character is of one of three forms. -/
inductive Escapes (mark : Char) : Char → List Char → Prop
  | short {c letter} : (c, letter) ∈ shortEscapes mark → Escapes mark c ['\\', letter]
  | plain {c} : c ≠ mark → c ≠ '\\' → Escapes mark c [c]
  | hex {c letter width} : (letter, width) ∈ hexWidths → c.toNat < Nat.pow 16 width →
      Escapes mark c ('\\' :: letter :: hexDigits width c.toNat)

variable {mark mark' c c' : Char} {e e' x x' : List Char} {s s' : String}

theorem escapes_hexEscape (mark c : Char) : Escapes mark c (hexEscape c) := by
  simp only [hexEscape]
  split
  · rename_i h
    exact .hex (by decide) h
  · split
    · rename_i h
      exact .hex (by decide) h
    · have hvalid : c.toNat < 0xD800 ∨ 0xDFFF < c.toNat ∧ c.toNat < 0x110000 := c.valid
      have hlt : c.toNat < 0x100000000 := by omega
      exact .hex (by decide) hlt

theorem escapes_quoteChar (mark c : Char) : Escapes mark c (quoteChar mark c) := by
  rw [quoteChar]
  split
  · rename_i h
    rcases Bool.or_eq_true_iff.1 h with h | h
    · rw [of_decide_eq_true h]
      exact .short List.mem_cons_self
    · rw [of_decide_eq_true h]
      exact .short (List.mem_cons_of_mem _ List.mem_cons_self)
  rename_i hquoted
  simp only [Bool.or_eq_true, decide_eq_true_eq, not_or] at hquoted
  -- the line ends and the tabulator
  iterate 3
    split
    · rename_i h
      subst h
      exact .short (by simp [shortEscapes])
  split
  · exact .plain hquoted.1 hquoted.2
  · exact escapes_hexEscape mark c

/-- The letters after the backslash are apart, and each stands for one character. -/
theorem letters_apart (h : mark ∈ marks) :
    (∀ entry ∈ shortEscapes mark, ∀ hex ∈ hexWidths, entry.2 ≠ hex.1) ∧
      ∀ entry ∈ shortEscapes mark, ∀ entry' ∈ shortEscapes mark,
        entry.2 = entry'.2 → entry.1 = entry'.1 := by
  have hcases : mark = '\'' ∨ mark = '"' := by simpa [marks] using h
  rcases hcases with rfl | rfl
  · exact ⟨by decide, by decide⟩
  · exact ⟨by decide, by decide⟩

theorem width_eq : ∀ hex ∈ hexWidths, ∀ hex' ∈ hexWidths, hex.1 = hex'.1 → hex.2 = hex'.2 := by
  decide

/-- The escapes are a prefix code. -/
theorem Escapes.cancel (hmark : mark ∈ marks) (h : Escapes mark c e) (h' : Escapes mark c' e')
    (heq : e ++ x = e' ++ x') : c = c' ∧ x = x' := by
  obtain ⟨happart, hone⟩ := letters_apart hmark
  cases h with
  | short h =>
    cases h' with
    | short h' =>
      obtain ⟨hletter, hx⟩ := List.cons.inj (List.cons.inj heq).2
      exact ⟨hone _ h _ h' hletter, hx⟩
    | plain _ h' => exact absurd (List.cons.inj heq).1.symm h'
    | hex h' => exact absurd (List.cons.inj (List.cons.inj heq).2).1 (happart _ h _ h')
  | plain _ h =>
    cases h' with
    | plain => exact List.cons.inj heq
    | short | hex => exact absurd (List.cons.inj heq).1 h
  | hex h hlt =>
    cases h' with
    | short h' => exact absurd (List.cons.inj (List.cons.inj heq).2).1.symm (happart _ h' _ h)
    | plain _ h' => exact absurd (List.cons.inj heq).1.symm h'
    | hex h' hlt' =>
      obtain ⟨hletter, hdigits⟩ := List.cons.inj (List.cons.inj heq).2
      obtain rfl := width_eq _ h _ h' hletter
      obtain ⟨hsame, hx⟩ :=
        List.append_inj hdigits (by rw [length_hexDigits, length_hexDigits])
      exact ⟨Char.toNat_inj.1 (hexDigits_injective hlt hlt' hsame), hx⟩

/-- No escape begins with the mark that ends a text. -/
theorem Escapes.ne_mark (hmark : mark ∈ marks) (h : Escapes mark c e) : e ++ x ≠ mark :: x' := by
  have hbackslash : '\\' ∉ marks := by decide
  intro heq
  cases h with
  | plain h => exact h (List.cons.inj heq).1
  | short | hex => exact hbackslash ((List.cons.inj heq).1 ▸ hmark)

/-! ## Quotations -/

theorem quoteMark_mem_marks (text : List Char) : quoteMark text ∈ marks := by
  rw [quoteMark]
  split <;> simp [marks]

theorem toList_quote (s : String) :
    (quote s).toList = quoteMark s.toList ::
      (s.toList.flatMap (quoteChar (quoteMark s.toList)) ++ [quoteMark s.toList]) := by
  rw [quote, String.toList_ofList]

/-- A text is known from its quotation, whatever follows. -/
theorem quote_cancel (h : (quote s).toList ++ x = (quote s').toList ++ x') : s = s' ∧ x = x' := by
  rw [toList_quote, toList_quote, List.cons_append, List.cons_append, List.append_assoc,
    List.append_assoc] at h
  obtain ⟨hmark, hrest⟩ := List.cons.inj h
  have hmem := quoteMark_mem_marks s.toList
  rw [← hmark] at hrest
  generalize quoteMark s.toList = mark at hrest hmem
  have hcode : ∀ {c c' : Char} {x x' : List Char},
      quoteChar mark c ++ x = quoteChar mark c' ++ x' → c = c' ∧ x = x' := by
    intro c c' x x' heq
    exact (escapes_quoteChar mark c).cancel hmem (escapes_quoteChar mark c') heq
  have hend : ∀ {c : Char} {x x' : List Char}, quoteChar mark c ++ x ≠ mark :: x' := by
    intro c x x'
    exact (escapes_quoteChar mark c).ne_mark hmem
  obtain ⟨hs, hx⟩ := delimited_cancel hcode hend hrest
  exact ⟨String.toList_inj.1 hs, hx⟩

end LoxSyntax.Text
