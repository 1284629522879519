import Mathlib.Data.List.TakeWhile
import LoxSyntax.Number.Reading
import LoxSyntax.Proofs.Lexical.Lexeme

/-! # Numerals

Every lexeme of the number class is a numeral, and its value is that of its digits
(`Lexeme.ofText?_eq`): there is no blank, sign, separator, exponent or word in it. -/

namespace LoxSyntax

namespace Character

def numeral : List Char := ['.', '0', '1', '2', '3', '4', '5', '6', '7', '8', '9']

theorem mem_numeral_of_isDigit {c : Char} (h : isDigit c = true) : c ∈ numeral := by
  have hrange : 48 ≤ c.toNat ∧ c.toNat ≤ 57 := Char.isDigit_iff_toNat.1 h
  have hc : c = Char.ofNat c.toNat := (Char.ofNat_toNat c).symm
  generalize c.toNat = n at hrange hc
  obtain rfl | rfl | rfl | rfl | rfl | rfl | rfl | rfl | rfl | rfl :
      n = 48 ∨ n = 49 ∨ n = 50 ∨ n = 51 ∨ n = 52 ∨ n = 53 ∨ n = 54 ∨ n = 55 ∨ n = 56 ∨ n = 57 := by
    omega
  all_goals
    subst hc
    decide

end Character

namespace Number

variable {c : Char} {text cs digits fraction : List Char}

theorem dropSeparators?_eq_some {afterDigit : Bool} (h : '_' ∉ text) :
    dropSeparators? afterDigit text = some text := by
  induction text generalizing afterDigit with
  | nil => rfl
  | cons c cs ih =>
    have hc : c ≠ '_' := fun hc => h (hc ▸ List.mem_cons_self)
    have hcs : '_' ∉ cs := fun hcs => h (List.mem_cons_of_mem _ hcs)
    rw [dropSeparators?.eq_4 _ _ _ hc, ih hcs]
    rfl

theorem trimBoth_eq_self {p : Char → Bool} (h : ∀ c ∈ text, p c = false) :
    Text.trimBoth p text = text := by
  have drop : ∀ cs : List Char, (∀ c ∈ cs, p c = false) → cs.dropWhile p = cs := by
    intro cs hcs
    cases cs with
    | nil => rfl
    | cons c cs => simp [hcs c List.mem_cons_self]
  rw [Text.trimBoth, drop text h, drop _ (by simpa using h), List.reverse_reverse]

theorem plain_of_mem_numeral {d : Char} (h : d ∈ Character.numeral) :
    surrounds d = false ∧ asciiDigit d = d ∧ d ≠ '_' ∧ d.toLower = d := by
  have hall : Character.numeral.all fun d =>
      surrounds d = false ∧ asciiDigit d = d ∧ d ≠ '_' ∧ d.toLower = d := by decide
  exact of_decide_eq_true (List.all_eq_true.1 hall d h)

/-- A text of digits and points that begins with a digit is read as an unsigned decimal. -/
theorem ofText?_of_numeral (hc : Character.isDigit c = true)
    (h : ∀ d ∈ c :: cs, d ∈ Character.numeral) :
    ofText? (.ofList (c :: cs)) = (decimalOf? (c :: cs)).map fun d => .signed false d.nearest := by
  have hminus : c ≠ '-' := ne_of_apart hc rfl
  have hplus : c ≠ '+' := ne_of_apart hc rfl
  have hi : c ≠ 'i' := ne_of_apart hc rfl
  have hn : c ≠ 'n' := ne_of_apart hc rfl
  have hmap : (c :: cs).map asciiDigit = c :: cs :=
    (List.map_congr_left fun d hd => (plain_of_mem_numeral (h d hd)).2.1).trans (List.map_id' _)
  have hlower : (c :: cs).map Char.toLower = c :: cs :=
    (List.map_congr_left fun d hd => (plain_of_mem_numeral (h d hd)).2.2.2).trans (List.map_id' _)
  have hplain : dropSeparators? false (c :: cs) = some (c :: cs) :=
    dropSeparators?_eq_some fun hmem => (plain_of_mem_numeral (h _ hmem)).2.2.1 rfl
  have hword : ∀ d ds, c ≠ d → String.ofList (c :: cs) ≠ String.ofList (d :: ds) := by
    intro d ds hne heq
    exact hne (List.cons.inj (String.ofList_injective heq)).1
  have hunsigned : unsigned? false (c :: cs) =
      (decimalOf? (c :: cs)).map fun d => .signed false d.nearest := by
    have hinf : String.ofList (c :: cs) ≠ "inf" := hword 'i' ['n', 'f'] hi
    have hinfinity : String.ofList (c :: cs) ≠ "infinity" :=
      hword 'i' ['n', 'f', 'i', 'n', 'i', 't', 'y'] hi
    have hnan : String.ofList (c :: cs) ≠ "nan" := hword 'n' ['a', 'n'] hn
    simp only [unsigned?, hlower, hinf, hinfinity, hnan, decide_false, Bool.or_self, if_false,
      Bool.false_eq_true]
  rw [ofText?, String.toList_ofList, trimBoth_eq_self fun d hd => (plain_of_mem_numeral (h d hd)).1, hmap, hplain]
  simp only [Option.bind_eq_bind, Option.bind_some]
  split
  · rename_i heq
    cases heq
    exact absurd rfl hminus
  · rename_i heq
    cases heq
    exact absurd rfl hplus
  · exact hunsigned

theorem decimalOf?_integer (h : ∀ d ∈ digits, d.isDigit) (hne : digits ≠ []) :
    decimalOf? digits = some ⟨digitsValue digits, 0⟩ := by
  simp only [decimalOf?, List.takeWhile_eq_self_iff.2 h, List.dropWhile_eq_nil_iff.2 h]
  simp [exponentOf?, hne]
  omega

theorem decimalOf?_point (h : ∀ d ∈ digits, d.isDigit) (hne : digits ≠ [])
    (hf : ∀ d ∈ fraction, d.isDigit) :
    decimalOf? (digits ++ '.' :: fraction) =
      some ⟨digitsValue (digits ++ fraction), -fraction.length⟩ := by
  have htake : (digits ++ '.' :: fraction).takeWhile Char.isDigit = digits := by
    rw [List.takeWhile_append_of_pos h]
    simp
  have hdrop : (digits ++ '.' :: fraction).dropWhile Char.isDigit = '.' :: fraction := by
    rw [List.dropWhile_append_of_pos h]
    simp
  simp only [decimalOf?, htake, hdrop, List.takeWhile_eq_self_iff.2 hf,
    List.dropWhile_eq_nil_iff.2 hf]
  simp [exponentOf?, hne]
  omega

end Number

namespace Decimal

variable {digits fraction text : List Char}

/-- The decimal that a number lexeme stands for: its digits without the point, over ten for each
digit after the point. -/
def ofLexeme (text : List Char) : Decimal where
  digits := Number.digitsValue (text.filter (· ≠ '.'))
  exponent := -(text.dropWhile (· ≠ '.')).tail.length

theorem ne_point_of_isDigit {c : Char} (h : c.isDigit = true) : decide (c ≠ '.') = true := by
  simpa using ne_of_apart h rfl

theorem ofLexeme_integer (h : ∀ d ∈ digits, d.isDigit) :
    ofLexeme digits = ⟨Number.digitsValue digits, 0⟩ := by
  have hpoint : ∀ d ∈ digits, decide (d ≠ '.') = true := fun d hd => ne_point_of_isDigit (h d hd)
  rw [ofLexeme, List.filter_eq_self.2 hpoint, List.dropWhile_eq_nil_iff.2 hpoint]
  rfl

theorem ofLexeme_point (h : ∀ d ∈ digits, d.isDigit) (hf : ∀ d ∈ fraction, d.isDigit) :
    ofLexeme (digits ++ '.' :: fraction) =
      ⟨Number.digitsValue (digits ++ fraction), -fraction.length⟩ := by
  have hpoint : ∀ d ∈ digits, decide (d ≠ '.') = true := fun d hd => ne_point_of_isDigit (h d hd)
  have hfraction : ∀ d ∈ fraction, decide (d ≠ '.') = true :=
    fun d hd => ne_point_of_isDigit (hf d hd)
  rw [ofLexeme, List.filter_append, List.filter_eq_self.2 hpoint, List.dropWhile_append_of_pos hpoint,
    List.filter_cons_of_neg (by decide), List.filter_eq_self.2 hfraction,
    List.dropWhile_cons_of_neg (by decide)]
  rfl

end Decimal

/-- A number lexeme is read as the number nearest to its decimal. -/
theorem Lexeme.ofText?_eq {text : List Char} (h : Lexeme .number text) :
    Number.ofText? (.ofList text) = some (.signed false (Decimal.ofLexeme text).nearest) := by
  cases h with
  | @integer c digits hc h =>
    have hall : ∀ d ∈ c :: digits, d.isDigit := List.forall_mem_cons.2 ⟨hc, h⟩
    have hnumeral : ∀ d ∈ c :: digits, d ∈ Character.numeral := fun d hd =>
      Character.mem_numeral_of_isDigit (hall d hd)
    rw [Number.ofText?_of_numeral hc hnumeral, Number.decimalOf?_integer hall (List.cons_ne_nil _ _),
      Decimal.ofLexeme_integer hall]
    rfl
  | @decimal c digits d fraction hc h hd hf =>
    have hwhole : ∀ d ∈ c :: digits, d.isDigit := List.forall_mem_cons.2 ⟨hc, h⟩
    have hfraction : ∀ e ∈ d :: fraction, e.isDigit := List.forall_mem_cons.2 ⟨hd, hf⟩
    have hnumeral : ∀ e ∈ c :: digits ++ '.' :: d :: fraction, e ∈ Character.numeral := by
      intro e he
      rcases List.mem_append.1 he with he | he
      · exact Character.mem_numeral_of_isDigit (hwhole e he)
      rcases List.mem_cons.1 he with rfl | he
      · exact List.mem_cons_self
      · exact Character.mem_numeral_of_isDigit (hfraction e he)
    refine (Number.ofText?_of_numeral hc hnumeral).trans ?_
    rw [← List.cons_append, Decimal.ofLexeme_point hwhole hfraction]
    refine congrArg _ (Number.decimalOf?_point hwhole (List.cons_ne_nil _ _) hfraction) |>.trans ?_
    rfl

end LoxSyntax
