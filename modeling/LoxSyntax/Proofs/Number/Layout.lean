import Mathlib.Algebra.Order.Field.Power
import LoxSyntax.Number.Layout
import LoxSyntax.Proofs.Lexical.Munch
import LoxSyntax.Proofs.Number.Rounding

/-! # The text of a number determines it

`Decimal.ofText` reads a decimal from a text in either notation, and what it reads from the text of a
decimal has the value of the decimal (`Decimal.value_ofText_decimalText`). The decimal of a number
rounds to the number, so no two numbers have one text (`Number.textWith_injective`). -/

namespace LoxSyntax

namespace Number

variable {digits : List Char} {exponent point : Int}

/-! ## Runs of digits -/

theorem digitsValue_toDigits (n : Nat) : digitsValue (Nat.toDigits 10 n) = n :=
  Nat.ofDigitChars_ten_toDigits

theorem isDigit_of_mem_toDigits (n : Nat) : ∀ c ∈ Nat.toDigits 10 n, c.isDigit :=
  fun _ => Nat.isDigit_of_mem_toDigits (by decide) (by decide)

theorem isDigit_of_mem_replicate (n : Nat) : ∀ c ∈ List.replicate n '0', c.isDigit := by
  intro c hc
  rw [List.eq_of_mem_replicate hc]
  rfl

theorem digitsValue_append_zeros (digits : List Char) (n : Nat) :
    digitsValue (digits ++ List.replicate n '0') = digitsValue digits * Nat.pow 10 n := by
  rw [digitsValue, Nat.ofDigitChars_append, Nat.ofDigitChars_replicate_zero, Nat.mul_comm]
  rfl

theorem digitsValue_zeros_append (n : Nat) (digits : List Char) :
    digitsValue (List.replicate n '0' ++ digits) = digitsValue digits := by
  rw [digitsValue, Nat.ofDigitChars_append, Nat.ofDigitChars_replicate_zero, Nat.mul_zero]
  rfl

/-- The value of digits with a point among them. -/
theorem value_point {whole fraction : List Char} (h : ∀ d ∈ whole, d.isDigit)
    (hf : ∀ d ∈ fraction, d.isDigit) :
    (Decimal.ofLexeme (whole ++ '.' :: fraction)).value =
      digitsValue (whole ++ fraction) * 10 ^ (-fraction.length : Int) := by
  rw [Decimal.ofLexeme_point h hf, Decimal.value]

/-! ## Positional notation -/

theorem value_positional_of_nonpos (h : ∀ d ∈ digits, d.isDigit) (hpoint : point ≤ 0) :
    (Decimal.ofLexeme (positional digits point)).value =
      digitsValue digits * 10 ^ (point - digits.length) := by
  obtain ⟨n, rfl⟩ := Int.exists_eq_neg_ofNat hpoint
  have hpositional : positional digits (-n : Int) =
      List.replicate 1 '0' ++ '.' :: (List.replicate n '0' ++ digits) := by
    rw [positional, if_pos hpoint, Int.neg_neg, Int.toNat_natCast]
    rfl
  have hfraction : ∀ d ∈ List.replicate n '0' ++ digits, d.isDigit :=
    List.forall_mem_append.2 ⟨isDigit_of_mem_replicate n, h⟩
  have hexponent : (-(List.replicate n '0' ++ digits).length : Int) = -n - digits.length := by
    rw [List.length_append, List.length_replicate]
    omega
  rw [hpositional, value_point (isDigit_of_mem_replicate 1) hfraction, digitsValue_zeros_append,
    digitsValue_zeros_append, hexponent]

theorem value_positional_of_le (h : ∀ d ∈ digits, d.isDigit) {n : Nat} (hpoint : 0 < n)
    (hlength : digits.length ≤ n) :
    (Decimal.ofLexeme (positional digits n)).value =
      digitsValue digits * 10 ^ ((n : Int) - digits.length) := by
  have hpositional : positional digits n =
      (digits ++ List.replicate (n - digits.length) '0') ++ '.' :: List.replicate 1 '0' := by
    rw [positional, if_neg (by omega), Int.toNat_natCast, List.take_of_length_le hlength,
      List.drop_eq_nil_of_le hlength]
    rfl
  have hwhole : ∀ d ∈ digits ++ List.replicate (n - digits.length) '0', d.isDigit :=
    List.forall_mem_append.2 ⟨h, isDigit_of_mem_replicate _⟩
  have hexponent : (n : Int) - digits.length = (n - digits.length : Nat) := by omega
  rw [hpositional, value_point hwhole (isDigit_of_mem_replicate 1), digitsValue_append_zeros,
    digitsValue_append_zeros, hexponent, zpow_natCast]
  simp

theorem value_positional_of_lt (h : ∀ d ∈ digits, d.isDigit) {n : Nat} (hpoint : 0 < n)
    (hlength : n < digits.length) :
    (Decimal.ofLexeme (positional digits n)).value =
      digitsValue digits * 10 ^ ((n : Int) - digits.length) := by
  have hdrop : (digits.drop n).isEmpty = false := by
    rw [List.isEmpty_eq_false_iff, ← List.length_pos_iff, List.length_drop]
    omega
  have hpositional : positional digits n = digits.take n ++ '.' :: digits.drop n := by
    rw [positional, if_neg (by omega), Int.toNat_natCast, Nat.sub_eq_zero_of_le hlength.le]
    simp [hdrop]
  have hwhole : ∀ d ∈ digits.take n, d.isDigit := fun d hd => h d (List.mem_of_mem_take hd)
  have hfraction : ∀ d ∈ digits.drop n, d.isDigit := fun d hd => h d (List.mem_of_mem_drop hd)
  have hexponent : (-(digits.drop n).length : Int) = n - digits.length := by
    rw [List.length_drop]
    omega
  rw [hpositional, value_point hwhole hfraction, List.take_append_drop, hexponent]

theorem value_positional (h : ∀ d ∈ digits, d.isDigit) (point : Int) :
    (Decimal.ofLexeme (positional digits point)).value =
      digitsValue digits * 10 ^ (point - digits.length) := by
  by_cases hpoint : point ≤ 0
  · exact value_positional_of_nonpos h hpoint
  · obtain ⟨n, rfl⟩ : ∃ n : Nat, point = n := ⟨point.toNat, by omega⟩
    have hpos : 0 < n := by omega
    rcases Nat.lt_or_ge n digits.length with hlength | hlength
    · exact value_positional_of_lt h hpos hlength
    · exact value_positional_of_le h hpos hlength

/-! ## Scientific notation -/

/-- The part of a scientific text before the exponent. -/
def mantissa : List Char → List Char
  | first :: second :: rest => first :: '.' :: second :: rest
  | short => short

theorem scientific_eq (digits : List Char) (exponent : Int) :
    scientific digits exponent = mantissa digits ++ exponentMark exponent := rfl

theorem value_mantissa (h : ∀ d ∈ digits, d.isDigit) (hne : digits ≠ []) :
    (Decimal.ofLexeme (mantissa digits)).value =
      digitsValue digits * 10 ^ (1 - digits.length : Int) := by
  match digits with
  | [] => exact absurd rfl hne
  | [first] =>
    rw [mantissa.eq_2 _ (by simp), Decimal.ofLexeme_integer h, Decimal.value]
    rfl
  | first :: second :: rest =>
    obtain ⟨hfirst, hrest⟩ := List.forall_mem_cons.1 h
    have hwhole : ∀ d ∈ [first], d.isDigit := by simpa using hfirst
    have hexponent : (-(second :: rest).length : Int) = 1 - (first :: second :: rest).length := by
      simp only [List.length_cons]
      omega
    rw [mantissa, ← List.singleton_append, value_point hwhole hrest, hexponent]
    rfl

/-- The digits of an exponent, two or more. -/
def exponentDigits (n : Nat) : List Char :=
  if (Nat.toDigits 10 n).length < 2 then '0' :: Nat.toDigits 10 n else Nat.toDigits 10 n

theorem exponentMark_eq (exponent : Int) :
    exponentMark exponent =
      'e' :: (if exponent < 0 then '-' else '+') :: exponentDigits exponent.natAbs := rfl

theorem isDigit_of_mem_exponentDigits (n : Nat) : ∀ c ∈ exponentDigits n, c.isDigit := by
  rw [exponentDigits]
  split
  · exact List.forall_mem_cons.2 ⟨rfl, isDigit_of_mem_toDigits n⟩
  · exact isDigit_of_mem_toDigits n

theorem digitsValue_exponentDigits (n : Nat) : digitsValue (exponentDigits n) = n := by
  rw [exponentDigits]
  split
  · exact (digitsValue_zeros_append 1 _).trans (digitsValue_toDigits n)
  · exact digitsValue_toDigits n

theorem exponentDigits_ne_nil (n : Nat) : exponentDigits n ≠ [] := by
  rw [exponentDigits]
  split
  · exact List.cons_ne_nil _ _
  · exact Nat.toDigits_ne_nil

theorem exponentOf?_exponentMark (exponent : Int) :
    exponentOf? (exponentMark exponent) = some exponent := by
  have hread : !(exponentDigits exponent.natAbs).isEmpty &&
      (exponentDigits exponent.natAbs).all Char.isDigit := by
    rw [Bool.and_eq_true, List.all_eq_true, Bool.not_eq_true', List.isEmpty_eq_false_iff]
    exact ⟨exponentDigits_ne_nil _, isDigit_of_mem_exponentDigits _⟩
  rw [exponentMark_eq]
  by_cases hsign : exponent < 0
  · have hvalue : -(exponent.natAbs : Int) = exponent := by omega
    simpa [exponentOf?, if_pos hsign, hread, digitsValue_exponentDigits] using hvalue
  · have hvalue : (exponent.natAbs : Int) = exponent := by omega
    simpa [exponentOf?, if_neg hsign, hread, digitsValue_exponentDigits] using hvalue

end Number

namespace Decimal

/-- The decimal that a text in either notation stands for. -/
def ofText (text : List Char) : Decimal :=
  let mantissa := ofLexeme (text.takeWhile (· ≠ 'e'))
  let exponent := (Number.exponentOf? (text.dropWhile (· ≠ 'e'))).getD 0
  ⟨mantissa.digits, mantissa.exponent + exponent⟩

theorem value_ofText {mantissa mark : List Char} {exponent : Int} (h : 'e' ∉ mantissa)
    (hmark : ∀ c ∈ mark.head?, c = 'e') (hexponent : Number.exponentOf? mark = some exponent) :
    (ofText (mantissa ++ mark)).value = (ofLexeme mantissa).value * 10 ^ exponent := by
  have hmantissa : ∀ c ∈ mantissa, decide (c ≠ 'e') = true := by
    intro c hc
    simpa using fun heq : c = 'e' => h (heq ▸ hc)
  have hstop : ∀ c ∈ mark.head?, decide (c ≠ 'e') = false := by simpa using hmark
  simp only [ofText, takeWhile_append_stop hmantissa hstop, dropWhile_append_stop hmantissa hstop,
    hexponent, Option.getD_some, value]
  rw [zpow_add₀ (by norm_num), mul_assoc]

end Decimal

namespace Number

variable {digits : List Char} {exponent point : Int} {d d' : Decimal} {c : Char}

/-- The characters of a decimal text that are no digits. -/
def marks : List Char := ['.', 'e', '+', '-']

theorem mem_positional (h : ∀ d ∈ digits, d.isDigit) (hc : c ∈ positional digits point) :
    c.isDigit ∨ c = '.' := by
  have hzeros : ∀ n, c ∈ List.replicate n '0' → c.isDigit = true :=
    fun n => isDigit_of_mem_replicate n c
  rw [positional] at hc
  split at hc
  · simp only [List.mem_cons, List.mem_append] at hc
    rcases hc with rfl | rfl | hc | hc
    · exact .inl rfl
    · exact .inr rfl
    · exact .inl (hzeros _ hc)
    · exact .inl (h c hc)
  · simp only [List.mem_cons, List.mem_append] at hc
    rcases hc with (hc | hc) | rfl | hc
    · exact .inl (h c (List.mem_of_mem_take hc))
    · exact .inl (hzeros _ hc)
    · exact .inr rfl
    · split at hc
      · exact .inl (hzeros 1 hc)
      · exact .inl (h c (List.mem_of_mem_drop hc))

theorem mem_mantissa (h : ∀ d ∈ digits, d.isDigit) (hc : c ∈ mantissa digits) :
    c.isDigit ∨ c = '.' := by
  match digits with
  | [] => cases hc
  | [first] => exact .inl (h c hc)
  | first :: second :: rest =>
    simp only [mantissa, List.mem_cons] at hc
    rcases hc with rfl | rfl | hc
    · exact .inl (h _ (by simp))
    · exact .inr rfl
    · exact .inl (h c (by simp [hc]))

theorem mem_exponentMark (hc : c ∈ exponentMark exponent) : c.isDigit ∨ c ∈ marks := by
  rw [exponentMark_eq, List.mem_cons, List.mem_cons] at hc
  rcases hc with rfl | rfl | hc
  · exact .inr (by decide)
  · exact .inr (by split <;> decide)
  · exact .inl (isDigit_of_mem_exponentDigits _ c hc)

theorem mark_not_mem {mark : Char} {text : List Char} (h : ∀ c ∈ text, c.isDigit ∨ c = '.')
    (hdigit : mark.isDigit = false) (hpoint : mark ≠ '.') : mark ∉ text := by
  intro hmem
  rcases h _ hmem with hc | hc
  · simp [hdigit] at hc
  · exact hpoint hc

theorem value_ofText_positional (h : ∀ d ∈ digits, d.isDigit) (point : Int) :
    (Decimal.ofText (positional digits point)).value =
      digitsValue digits * 10 ^ (point - digits.length) := by
  have hmark : 'e' ∉ positional digits point :=
    mark_not_mem (fun c hc => mem_positional h hc) rfl (by decide)
  have hvalue : (Decimal.ofText (positional digits point ++ [])).value = _ :=
    Decimal.value_ofText hmark (by simp) rfl
  rwa [List.append_nil, zpow_zero, mul_one, value_positional h] at hvalue

theorem value_ofText_scientific (h : ∀ d ∈ digits, d.isDigit) (hne : digits ≠ [])
    (exponent : Int) :
    (Decimal.ofText (scientific digits exponent)).value =
      digitsValue digits * 10 ^ (exponent + 1 - digits.length) := by
  have hmark : 'e' ∉ mantissa digits := mark_not_mem (fun c hc => mem_mantissa h hc) rfl (by decide)
  have hexponent : exponent + 1 - digits.length = 1 - digits.length + exponent := by omega
  rw [scientific_eq, Decimal.value_ofText hmark (by simp [exponentMark_eq])
    (exponentOf?_exponentMark exponent), value_mantissa h hne, hexponent, zpow_add₀ (by norm_num),
    mul_assoc]

theorem exists_decimalText_eq (d : Decimal) :
    ∃ exponent : Int, exponent + 1 - (Nat.toDigits 10 d.digits).length = d.exponent ∧
      (decimalText d = positional (Nat.toDigits 10 d.digits) (exponent + 1) ∨
        decimalText d = scientific (Nat.toDigits 10 d.digits) exponent) := by
  refine ⟨d.exponent + (Nat.toDigits 10 d.digits).length - 1, by omega, ?_⟩
  rw [decimalText]
  split
  · exact .inl rfl
  · exact .inr rfl

/-- The value of a decimal can be read from its text. -/
theorem value_ofText_decimalText (d : Decimal) : (Decimal.ofText (decimalText d)).value = d.value := by
  have h := isDigit_of_mem_toDigits d.digits
  have hvalue : (digitsValue (Nat.toDigits 10 d.digits) : ℚ) * 10 ^ d.exponent = d.value := by
    rw [digitsValue_toDigits, Decimal.value]
  obtain ⟨exponent, hexponent, htext | htext⟩ := exists_decimalText_eq d
  · rw [htext, value_ofText_positional h, hexponent, hvalue]
  · rw [htext, value_ofText_scientific h Nat.toDigits_ne_nil, hexponent, hvalue]

theorem mem_decimalText (hc : c ∈ decimalText d) : c.isDigit ∨ c ∈ marks := by
  have h := isDigit_of_mem_toDigits d.digits
  have hpoint : c.isDigit = true ∨ c = '.' → c.isDigit = true ∨ c ∈ marks :=
    Or.imp_right fun heq => heq ▸ by decide
  obtain ⟨exponent, -, htext | htext⟩ := exists_decimalText_eq d
  · exact hpoint (mem_positional h (htext ▸ hc))
  · rw [htext, scientific_eq] at hc
    rcases List.mem_append.1 hc with hc | hc
    · exact hpoint (mem_mantissa h hc)
    · exact mem_exponentMark hc

/-- The text of a decimal is not that of a whole number. -/
theorem exists_mark_mem_decimalText (d : Decimal) :
    ∃ c ∈ decimalText d, c.isDigit = false ∧ c ≠ '-' := by
  obtain ⟨exponent, -, htext | htext⟩ := exists_decimalText_eq d
  · refine ⟨'.', ?_, rfl, by decide⟩
    rw [htext, positional]
    split <;> simp
  · refine ⟨'e', ?_, rfl, by decide⟩
    rw [htext, scientific_eq, exponentMark_eq]
    simp

/-- The text of a decimal begins with a digit. -/
theorem isDigit_head_decimalText (d : Decimal) :
    ∃ c cs, decimalText d = c :: cs ∧ c.isDigit = true := by
  have h := isDigit_of_mem_toDigits d.digits
  obtain ⟨exponent, -, htext⟩ := exists_decimalText_eq d
  obtain ⟨c, cs, hcs⟩ := List.exists_cons_of_ne_nil (Nat.toDigits_ne_nil (n := d.digits) (b := 10))
  have hc : c.isDigit = true := h c (hcs ▸ List.mem_cons_self)
  rcases htext with htext | htext
  · rw [htext, positional]
    split
    · exact ⟨_, _, rfl, rfl⟩
    · obtain ⟨n, hn⟩ : ∃ n : Nat, (exponent + 1).toNat = n + 1 := ⟨exponent.toNat, by omega⟩
      rw [hcs, hn]
      exact ⟨_, _, rfl, hc⟩
  · rw [htext, scientific_eq, hcs]
    cases cs with
    | nil => exact ⟨_, _, rfl, hc⟩
    | cons second rest => exact ⟨_, _, rfl, hc⟩

theorem value_eq_of_decimalText_eq (h : decimalText d = decimalText d') : d.value = d'.value := by
  rw [← value_ofText_decimalText, h, value_ofText_decimalText]

/-- Magnitudes whose decimals have one text are the same. -/
theorem decimalText_shortest_injective {m m' : Magnitude}
    (h : decimalText m.shortest = decimalText m'.shortest) : m = m' := by
  have hnearest := Decimal.nearest_congr (value_eq_of_decimalText_eq h)
  rwa [Magnitude.nearest_shortest, Magnitude.nearest_shortest] at hnearest

/-! ## The text of a number -/

/-- The names are told apart from each other and from a sign or a digit by their first characters. -/
structure SpecialNames.Apart (names : SpecialNames) : Prop where
  ne : names.infinity.toList.head? ≠ names.nan.toList.head?
  letters : ∀ name ∈ [names.infinity, names.nan],
    ∃ c cs, name.toList = c :: cs ∧ c.isDigit = false ∧ c ≠ '-'

/-- The text of a number without its sign. -/
def magnitudeText (names : SpecialNames) (m : Magnitude) : List Char :=
  if m = .infinity then names.infinity.toList else decimalText m.shortest

theorem toList_textWith_signed (names : SpecialNames) (negative : Bool) (m : Magnitude) :
    (textWith names (.signed negative m)).toList =
      (if negative then ['-'] else []) ++ magnitudeText names m := by
  have hsign : (if negative then "-" else "").toList = if negative then ['-'] else [] := by
    cases negative <;> rfl
  rw [textWith, magnitudeText]
  by_cases h : m = .infinity
  · rw [if_pos h, if_pos h, String.toList_append, hsign]
  · rw [if_neg h, if_neg h, String.toList_append, hsign, String.toList_ofList]

variable {names : SpecialNames}

theorem head_magnitudeText (h : names.Apart) (m : Magnitude) :
    ∃ c cs, magnitudeText names m = c :: cs ∧ c ≠ '-' ∧ names.nan.toList.head? ≠ some c := by
  rw [magnitudeText]
  split
  · obtain ⟨c, cs, hcs, -, hc⟩ := h.letters names.infinity (by simp)
    refine ⟨c, cs, hcs, hc, fun hnan => h.ne ?_⟩
    rw [hcs, hnan]
    rfl
  · obtain ⟨c, cs, hcs, hc⟩ := isDigit_head_decimalText m.shortest
    obtain ⟨d, ds, hds, hd, -⟩ := h.letters names.nan (by simp)
    refine ⟨c, cs, hcs, ne_of_apart hc rfl, fun hnan => ?_⟩
    rw [hds] at hnan
    cases hnan
    simp [hd] at hc

theorem magnitudeText_injective (h : names.Apart) {m m' : Magnitude}
    (heq : magnitudeText names m = magnitudeText names m') : m = m' := by
  obtain ⟨c, cs, hcs, hc, -⟩ := h.letters names.infinity (by simp)
  have hne : ∀ m : Magnitude, decimalText m.shortest ≠ names.infinity.toList := by
    intro m heq
    obtain ⟨d, ds, hds, hd⟩ := isDigit_head_decimalText m.shortest
    rw [hds, hcs] at heq
    simp [(List.cons.inj heq).1, hc] at hd
  simp only [magnitudeText] at heq
  split at heq
  · split at heq
    · simp_all
    · exact absurd heq.symm (hne m')
  · split at heq
    · exact absurd heq (hne m)
    · exact decimalText_shortest_injective heq

/-- No two numbers have one text. -/
theorem textWith_injective (h : names.Apart) : Function.Injective (textWith names) := by
  intro a b heq
  replace heq := congrArg String.toList heq
  have hnan : ∀ negative m, names.nan.toList ≠ (textWith names (.signed negative m)).toList := by
    intro negative m heq
    obtain ⟨c, cs, hcs, -, hc⟩ := head_magnitudeText h m
    obtain ⟨d, ds, hds, -, hd⟩ := h.letters names.nan (by simp)
    rw [toList_textWith_signed, hcs] at heq
    cases negative with
    | false => exact hc (by rw [heq]; rfl)
    | true =>
      rw [hds] at heq
      exact hd (List.cons.inj heq).1
  cases a with
  | nan =>
    cases b with
    | nan => rfl
    | signed negative m => exact absurd heq (hnan negative m)
  | signed negative m =>
    cases b with
    | nan => exact absurd heq.symm (hnan negative m)
    | signed negative' m' =>
      obtain ⟨c, cs, hcs, hc, -⟩ := head_magnitudeText h m
      obtain ⟨c', cs', hcs', hc', -⟩ := head_magnitudeText h m'
      rw [toList_textWith_signed, toList_textWith_signed] at heq
      have hsign : negative = negative' := by
        rw [hcs, hcs'] at heq
        cases negative with
        | false =>
          cases negative' with
          | false => rfl
          | true => exact absurd (List.cons.inj heq).1 hc
        | true =>
          cases negative' with
          | false => exact absurd (List.cons.inj heq).1.symm hc'
          | true => rfl
      subst hsign
      rw [magnitudeText_injective h (List.append_cancel_left heq)]

/-! ## Its characters -/

theorem mem_magnitudeText {m : Magnitude} (hc : c ∈ magnitudeText names m) :
    c.isDigit ∨ c ∈ marks ∨ c ∈ names.infinity.toList := by
  rw [magnitudeText] at hc
  split at hc
  · exact .inr (.inr hc)
  · exact (mem_decimalText hc).imp_right .inl

theorem mem_textWith {n : Number} (hc : c ∈ (textWith names n).toList) :
    c.isDigit ∨ c ∈ marks ∨ c ∈ names.infinity.toList ∨ c ∈ names.nan.toList := by
  cases n with
  | nan => exact .inr (.inr (.inr hc))
  | signed negative m =>
    rw [toList_textWith_signed] at hc
    rcases List.mem_append.1 hc with hc | hc
    · cases negative with
      | false => cases hc
      | true => exact .inr (.inl (List.mem_singleton.1 hc ▸ by decide))
    · exact (mem_magnitudeText hc).imp_right (.imp_right .inl)

/-- The text of a number is not that of a whole number. -/
theorem exists_mark_mem_textWith (h : names.Apart) (n : Number) :
    ∃ c ∈ (textWith names n).toList, c.isDigit = false ∧ c ≠ '-' := by
  have hname : ∀ name ∈ [names.infinity, names.nan],
      ∃ c ∈ name.toList, c.isDigit = false ∧ c ≠ '-' := by
    intro name hmem
    obtain ⟨c, cs, hcs, hc⟩ := h.letters name hmem
    exact ⟨c, hcs ▸ List.mem_cons_self, hc⟩
  cases n with
  | nan => exact hname names.nan (by simp)
  | signed negative m =>
    have hmagnitude : ∃ c ∈ magnitudeText names m, c.isDigit = false ∧ c ≠ '-' := by
      rw [magnitudeText]
      split
      · exact hname names.infinity (by simp)
      · exact exists_mark_mem_decimalText m.shortest
    obtain ⟨c, hmem, hc⟩ := hmagnitude
    rw [toList_textWith_signed]
    exact ⟨c, List.mem_append_right _ hmem, hc⟩

/-- How the text of a number begins. -/
theorem head_textWith {n : Number} (hc : c ∈ (textWith names n).toList.head?) :
    c.isDigit ∨ c = '-' ∨ c ∈ names.infinity.toList.head? ∨ c ∈ names.nan.toList.head? := by
  cases n with
  | nan => exact .inr (.inr (.inr hc))
  | signed negative m =>
    rw [toList_textWith_signed] at hc
    cases negative with
    | true =>
      cases hc
      exact .inr (.inl rfl)
    | false =>
      rw [if_neg Bool.false_ne_true, List.nil_append, magnitudeText] at hc
      split at hc
      · exact .inr (.inr (.inl hc))
      · obtain ⟨d, ds, hds, hd⟩ := isDigit_head_decimalText m.shortest
        rw [hds] at hc
        cases hc
        exact .inl hd

/-- The names that numbers without digits have in JSON. -/
def jsonNames : SpecialNames := ⟨"Infinity", "NaN"⟩

theorem jsonNames_apart : jsonNames.Apart where
  ne := by decide
  letters := by
    intro name hname
    simp only [List.mem_cons, List.not_mem_nil, or_false] at hname
    rcases hname with rfl | rfl
    · exact ⟨'I', _, rfl, rfl, by decide⟩
    · exact ⟨'N', _, rfl, rfl, by decide⟩

theorem jsonText_injective : Function.Injective jsonText := textWith_injective jsonNames_apart

theorem exists_mark_mem_jsonText (n : Number) :
    ∃ c ∈ n.jsonText.toList, c.isDigit = false ∧ c ≠ '-' :=
  exists_mark_mem_textWith jsonNames_apart n

theorem mem_jsonText {n : Number} (hc : c ∈ n.jsonText.toList) :
    c.isDigit ∨ c ∈ marks ∨ c ∈ "Infinity".toList ∨ c ∈ "NaN".toList :=
  mem_textWith hc

theorem head_jsonText {n : Number} (hc : c ∈ n.jsonText.toList.head?) :
    c.isDigit ∨ c ∈ ['-', 'I', 'N'] := by
  rcases head_textWith hc with hdigit | rfl | hinfinity | hnan
  · exact .inl hdigit
  · exact .inr (by decide)
  · cases hinfinity
    exact .inr (by decide)
  · cases hnan
    exact .inr (by decide)

/-- The names that numbers without digits have elsewhere. -/
def textNames : SpecialNames := ⟨"inf", "nan"⟩

theorem textNames_apart : textNames.Apart where
  ne := by decide
  letters := by
    intro name hname
    simp only [List.mem_cons, List.not_mem_nil, or_false] at hname
    rcases hname with rfl | rfl
    · exact ⟨'i', _, rfl, rfl, by decide⟩
    · exact ⟨'n', _, rfl, rfl, by decide⟩

theorem text_injective : Function.Injective text := textWith_injective textNames_apart

theorem mem_text {n : Number} (hc : c ∈ n.text.toList) :
    c.isDigit ∨ c ∈ marks ∨ c ∈ "inf".toList ∨ c ∈ "nan".toList :=
  mem_textWith hc

/-- The character may begin the text of a number. -/
def isTextHead (c : Char) : Bool := c.isDigit || c = '-' || c = 'i' || c = 'n'

theorem head_text (n : Number) : ∃ c cs, n.text.toList = c :: cs ∧ isTextHead c = true := by
  obtain ⟨mark, hmark, -⟩ := exists_mark_mem_textWith textNames_apart n
  obtain ⟨c, cs, hcs⟩ := List.exists_cons_of_ne_nil (List.ne_nil_of_mem hmark)
  have hc : c ∈ (textWith textNames n).toList.head? := by
    rw [hcs]
    rfl
  refine ⟨c, cs, hcs, ?_⟩
  rcases head_textWith hc with hdigit | rfl | hinfinity | hnan
  · simp [isTextHead, hdigit]
  · rfl
  · cases hinfinity
    rfl
  · cases hnan
    rfl

end Number

end LoxSyntax
