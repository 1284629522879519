import LoxSyntax.Expr.Description
import LoxSyntax.Proofs.Json.Layout
import Mathlib.Data.List.Nodup

/-! # Reading back a description

Tokens and trees are known from their descriptions (`Expr.description_injective`). The first
character of the description of a node tells which node it is; a text ends at its mark, a word at
the comma behind it, a line at the parenthesis that closes the node, and a part of a node is read
like the whole (`Expr.description_cancel`). -/

namespace LoxSyntax

variable {x x' : List Char}

/-! ## Words and numerals -/

/-- What stands before a label without its first character, and what stands behind the label. -/
theorem Text.word_cancel {label : String} {stop : Char} {w w' : List Char}
    (hlabel : label.toList.head? = some stop) (hw : stop ∉ w) (hw' : stop ∉ w')
    (h : w ++ (label.toList ++ x) = w' ++ (label.toList ++ x')) : w = w' ∧ x = x' := by
  let inside : Char → Bool := fun c => c ≠ stop
  have hword : ∀ {w : List Char}, stop ∉ w → ∀ c ∈ w, inside c = true := by
    intro w hw c hc
    exact decide_eq_true fun heq => hw (heq ▸ hc)
  have hstop : ∀ (x : List Char), ∀ c ∈ (label.toList ++ x).head?, inside c = false := by
    intro x c hc
    rw [List.head?_append, hlabel] at hc
    cases hc
    simp [inside]
  obtain ⟨hsame, hrest⟩ := run_unique (hword hw) (hstop x) (hword hw') (hstop x') h
  exact ⟨hsame, List.append_cancel_left hrest⟩

/-- An integer ends at a parenthesis. -/
theorem integer_cancel {n n' : Int}
    (h : (toString n).toList ++ (")".toList ++ x) = (toString n').toList ++ (")".toList ++ x')) :
    n = n' ∧ x = x' := by
  have hword : ∀ n : Int, ')' ∉ (toString n).toList := by
    intro n hmem
    rcases Json.mem_toList_toString hmem with hdigit | hminus
    · exact absurd hdigit (by decide)
    · exact absurd hminus (by decide)
  obtain ⟨htext, hrest⟩ := Text.word_cancel rfl (hword n) (hword n') h
  exact ⟨Json.toString_injective (String.toList_inj.1 htext), hrest⟩

namespace Kind

theorem mem_all (kind : Kind) : kind ∈ all := by
  cases kind <;> decide

theorem comma_not_mem_name (kind : Kind) : ',' ∉ kind.name.toList := by
  have hall : ∀ kind ∈ all, ',' ∉ kind.name.toList := by decide +kernel
  exact hall kind kind.mem_all

theorem name_injective : Function.Injective name := by
  have hnames : (all.map name).Nodup := by decide +kernel
  intro kind kind' h
  exact List.inj_on_of_nodup_map hnames kind.mem_all kind'.mem_all h

theorem name_cancel {kind kind' : Kind} {label : String} (hlabel : label.toList.head? = some ',')
    (h : kind.name.toList ++ (label.toList ++ x) = kind'.name.toList ++ (label.toList ++ x')) :
    kind = kind' ∧ x = x' := by
  obtain ⟨hname, hrest⟩ :=
    Text.word_cancel hlabel kind.comma_not_mem_name kind'.comma_not_mem_name h
  exact ⟨name_injective (String.toList_inj.1 hname), hrest⟩

end Kind

/-! ## Constants -/

namespace Literal

variable {a b : Literal} {c : Char}

/-- The constant is described by a word. -/
def isWord : Literal → Bool
  | nil | bool _ => true
  | number _ | text _ => false

theorem exists_head_word (h : a.isWord) :
    ∃ c cs, a.description.toList = c :: cs ∧ c ∈ ['N', 'T', 'F'] := by
  cases a with
  | nil => exact ⟨'N', _, rfl, by decide⟩
  | bool value =>
    cases value with
    | false => exact ⟨'F', _, rfl, by decide⟩
    | true => exact ⟨'T', _, rfl, by decide⟩
  | number | text => cases h

theorem word_injective (ha : a.isWord) (hb : b.isWord) (h : a.description = b.description) :
    a = b := by
  have hwords : ∀ a ∈ [nil, bool false, bool true], ∀ b ∈ [nil, bool false, bool true],
      a.description = b.description → a = b := by decide +kernel
  have hmem : ∀ {a : Literal}, a.isWord → a ∈ [nil, bool false, bool true] := by
    intro a ha
    cases a with
    | nil => simp
    | bool value => cases value <;> simp
    | number | text => cases ha
  exact hwords a (hmem ha) b (hmem hb) h

/-- A number begins with no letter that a word begins with. -/
theorem word_ne_number (ha : a.isWord) (n : Number) : a.description ≠ (number n).description := by
  obtain ⟨c, cs, hcs, hc⟩ := exists_head_word ha
  obtain ⟨d, ds, hds, hd⟩ := n.head_text
  have happart : ['N', 'T', 'F'].all (!Number.isTextHead ·) = true := rfl
  intro h
  have hheads : c :: cs = d :: ds := hcs.symm.trans ((congrArg String.toList h).trans hds)
  obtain ⟨rfl, -⟩ := List.cons.inj hheads
  simpa [hd] using List.all_eq_true.1 happart c hc

/-- The character is neither a comma nor a mark. -/
def isInner (c : Char) : Bool := c ≠ ',' && c ≠ '\'' && c ≠ '"'

theorem isInner_of_mem_numberText {n : Number} (hc : c ∈ n.text.toList) : isInner c = true := by
  have hall : (Number.marks ++ "inf".toList ++ "nan".toList).all isInner = true := rfl
  simp only [List.all_append, Bool.and_eq_true, List.all_eq_true] at hall
  obtain ⟨⟨hmarks, hinfinity⟩, hnan⟩ := hall
  rcases Number.mem_text hc with h | h | h | h
  · have hne : c ≠ ',' ∧ c ≠ '\'' ∧ c ≠ '"' :=
      ⟨ne_of_apart h rfl, ne_of_apart h rfl, ne_of_apart h rfl⟩
    simp [isInner, hne]
  · exact hmarks c h
  · exact hinfinity c h
  · exact hnan c h

/-- What is described without marks has neither a comma nor a mark in it. -/
theorem isInner_of_mem (ha : ∀ s, a ≠ text s) (hc : c ∈ a.description.toList) :
    isInner c = true := by
  cases a with
  | nil =>
    have hall : nil.description.toList.all isInner = true := rfl
    exact List.all_eq_true.1 hall c hc
  | bool value =>
    have hall : (bool value).description.toList.all isInner = true := by cases value <;> rfl
    exact List.all_eq_true.1 hall c hc
  | number n => exact isInner_of_mem_numberText hc
  | text s => exact absurd rfl (ha s)

theorem comma_not_mem_description (ha : ∀ s, a ≠ text s) : ',' ∉ a.description.toList := by
  intro hmem
  exact absurd (isInner_of_mem ha hmem) (by decide)

theorem description_injective_of_ne_text (ha : ∀ s, a ≠ text s) (hb : ∀ s, b ≠ text s)
    (h : a.description = b.description) : a = b := by
  cases a with
  | number m =>
    cases b with
    | number n => rw [Number.text_injective h]
    | nil | bool => exact absurd h.symm (word_ne_number rfl m)
    | text s => exact absurd rfl (hb s)
  | nil | bool =>
    cases b with
    | number n => exact absurd h (word_ne_number rfl n)
    | nil | bool => exact word_injective rfl rfl h
    | text s => exact absurd rfl (hb s)
  | text s => exact absurd rfl (ha s)

theorem description_ne_nil (a : Literal) : a.description.toList ≠ [] := by
  cases a with
  | number n =>
    obtain ⟨c, cs, hcs, -⟩ := n.head_text
    have htext : (number n).description.toList = c :: cs := hcs
    exact htext ▸ List.cons_ne_nil c cs
  | nil => exact List.cons_ne_nil 'N' _
  | bool value =>
    cases value with
    | false => exact List.cons_ne_nil 'F' _
    | true => exact List.cons_ne_nil 'T' _
  | text s =>
    have hquote : (text s).description.toList = _ := Text.toList_quote s
    exact hquote ▸ List.cons_ne_nil _ _

/-- What is described without a mark begins otherwise than a quotation. -/
theorem description_append_ne_quote (ha : ∀ s, a ≠ text s) (s : String) :
    a.description.toList ++ x ≠ (Text.quote s).toList ++ x' := by
  obtain ⟨c, cs, hcs⟩ := List.exists_cons_of_ne_nil a.description_ne_nil
  have hinner : isInner c = true := isInner_of_mem ha (hcs ▸ List.mem_cons_self)
  have hmarks : Text.marks.all (!isInner ·) = true := rfl
  intro h
  rw [hcs, Text.toList_quote] at h
  obtain ⟨rfl, -⟩ := List.cons.inj h
  simpa [hinner] using List.all_eq_true.1 hmarks _ (Text.quoteMark_mem_marks s.toList)

/-- A constant ends at its mark, or at the comma behind it. -/
theorem description_cancel {label : String} (hlabel : label.toList.head? = some ',')
    (h : a.description.toList ++ (label.toList ++ x) =
      b.description.toList ++ (label.toList ++ x')) : a = b ∧ x = x' := by
  by_cases ha : ∃ s, a = text s
  · obtain ⟨s, rfl⟩ := ha
    by_cases hb : ∃ s, b = text s
    · obtain ⟨s', rfl⟩ := hb
      obtain ⟨rfl, hrest⟩ := Text.quote_cancel h
      exact ⟨rfl, List.append_cancel_left hrest⟩
    · exact absurd h.symm (description_append_ne_quote (not_exists.1 hb) s)
  · have ha := not_exists.1 ha
    by_cases hb : ∃ s, b = text s
    · obtain ⟨s', rfl⟩ := hb
      exact absurd h (description_append_ne_quote ha s')
    · have hb := not_exists.1 hb
      obtain ⟨htext, hrest⟩ :=
        Text.word_cancel hlabel (comma_not_mem_description ha) (comma_not_mem_description hb) h
      exact ⟨description_injective_of_ne_text ha hb (String.toList_inj.1 htext), hrest⟩

end Literal

/-! ## Tokens -/

namespace Token

variable {t t' : Token}

theorem toList_description (t : Token) :
    t.description.toList = "Token(".toList ++ (t.kind.name.toList ++ (", ".toList ++
      ((Text.quote t.lexeme).toList ++ (", ".toList ++ (t.literal.description.toList ++
        (", line=".toList ++ ((toString t.line).toList ++ ")".toList))))))) := by
  have hdescription : t.description = "Token(" ++ t.kind.name ++ ", " ++ Text.quote t.lexeme ++
      ", " ++ t.literal.description ++ ", line=" ++ toString t.line ++ ")" := rfl
  simp only [hdescription, String.toList_append, List.append_assoc]

/-- A token is known from its description, whatever follows. -/
theorem description_cancel (h : t.description.toList ++ x = t'.description.toList ++ x') :
    t = t' ∧ x = x' := by
  obtain ⟨kind, lexeme, literal, line⟩ := t
  obtain ⟨kind', lexeme', literal', line'⟩ := t'
  rw [toList_description, toList_description] at h
  simp only [List.append_assoc] at h
  obtain ⟨rfl, hlexeme⟩ := Kind.name_cancel rfl (List.append_cancel_left h)
  obtain ⟨rfl, hcomma⟩ := Text.quote_cancel hlexeme
  obtain ⟨rfl, hline⟩ := Literal.description_cancel rfl (List.append_cancel_left hcomma)
  obtain ⟨rfl, hrest⟩ := integer_cancel hline
  exact ⟨rfl, hrest⟩

end Token

/-! ## Trees -/

namespace Expr

variable {e e' : Expr}

/-- The first character of the description. -/
def initial : Expr → Char
  | literal .. => 'L'
  | grouping .. => 'G'
  | unary .. => 'U'
  | binary .. => 'B'
  | reference _ => 'V'
  | unknown => 'M'

theorem toList_description_literal (value : Literal) (line : Int) :
    (literal value line).description.toList = "Literal(value=".toList ++
      (value.description.toList ++ (", source_line=".toList ++
        ((toString line).toList ++ ")".toList))) := by
  have hdescription : (literal value line).description =
      "Literal(value=" ++ value.description ++ ", source_line=" ++ toString line ++ ")" := rfl
  simp only [hdescription, String.toList_append, List.append_assoc]

theorem toList_description_grouping (inner : Expr) (line : Int) :
    (grouping inner line).description.toList = "Grouping(expression=".toList ++
      (inner.description.toList ++ (", source_line=".toList ++
        ((toString line).toList ++ ")".toList))) := by
  have hdescription : (grouping inner line).description =
      "Grouping(expression=" ++ inner.description ++ ", source_line=" ++ toString line ++ ")" := rfl
  simp only [hdescription, String.toList_append, List.append_assoc]

theorem toList_description_unary (operator : Token) (right : Expr) :
    (unary operator right).description.toList = "Unary(operator=".toList ++
      (operator.description.toList ++ (", right=".toList ++
        (right.description.toList ++ ")".toList))) := by
  have hdescription : (unary operator right).description =
      "Unary(operator=" ++ operator.description ++ ", right=" ++ right.description ++ ")" := rfl
  simp only [hdescription, String.toList_append, List.append_assoc]

theorem toList_description_binary (left : Expr) (operator : Token) (right : Expr) :
    (binary left operator right).description.toList = "Binary(left=".toList ++
      (left.description.toList ++ (", operator=".toList ++ (operator.description.toList ++
        (", right=".toList ++ (right.description.toList ++ ")".toList))))) := by
  have hdescription : (binary left operator right).description = "Binary(left=" ++
      left.description ++ ", operator=" ++ operator.description ++ ", right=" ++
        right.description ++ ")" := rfl
  simp only [hdescription, String.toList_append, List.append_assoc]

theorem toList_description_reference (name : Token) :
    (reference name).description.toList =
      "Variable(name=".toList ++ (name.description.toList ++ ")".toList) := by
  have hdescription : (reference name).description =
      "Variable(name=" ++ name.description ++ ")" := rfl
  simp only [hdescription, String.toList_append, List.append_assoc]

theorem toList_description_unknown : unknown.description.toList = "Mystery()".toList := rfl

theorem exists_head_description (e : Expr) : ∃ cs, e.description.toList = e.initial :: cs := by
  cases e with
  | literal value line => exact ⟨_, toList_description_literal value line⟩
  | grouping inner line => exact ⟨_, toList_description_grouping inner line⟩
  | unary operator right => exact ⟨_, toList_description_unary operator right⟩
  | binary left operator right => exact ⟨_, toList_description_binary left operator right⟩
  | reference name => exact ⟨_, toList_description_reference name⟩
  | unknown => exact ⟨_, toList_description_unknown⟩

theorem initial_eq (h : e.description.toList ++ x = e'.description.toList ++ x') :
    e.initial = e'.initial := by
  obtain ⟨cs, hcs⟩ := e.exists_head_description
  obtain ⟨cs', hcs'⟩ := e'.exists_head_description
  rw [hcs, hcs'] at h
  exact (List.cons.inj h).1

/-- A tree is known from its description, whatever follows. By induction on one of two trees with
the same description: the labels of the parts are the same, and the parts are read one by one. -/
theorem description_cancel (h : e.description.toList ++ x = e'.description.toList ++ x') :
    e = e' ∧ x = x' := by
  have hinitial := initial_eq h
  induction e generalizing e' x x' with
  | literal value line =>
    cases e' with
    | literal value' line' =>
      rw [toList_description_literal, toList_description_literal] at h
      simp only [List.append_assoc] at h
      obtain ⟨rfl, hline⟩ := Literal.description_cancel rfl (List.append_cancel_left h)
      obtain ⟨rfl, hrest⟩ := integer_cancel hline
      exact ⟨rfl, hrest⟩
    | _ => exact absurd hinitial (by simp [initial])
  | grouping inner line ih =>
    cases e' with
    | grouping inner' line' =>
      rw [toList_description_grouping, toList_description_grouping] at h
      simp only [List.append_assoc] at h
      have hinner := List.append_cancel_left h
      obtain ⟨rfl, hline⟩ := ih hinner (initial_eq hinner)
      obtain ⟨rfl, hrest⟩ := integer_cancel (List.append_cancel_left hline)
      exact ⟨rfl, hrest⟩
    | _ => exact absurd hinitial (by simp [initial])
  | unary operator right ih =>
    cases e' with
    | unary operator' right' =>
      rw [toList_description_unary, toList_description_unary] at h
      simp only [List.append_assoc] at h
      obtain ⟨rfl, hoperator⟩ := Token.description_cancel (List.append_cancel_left h)
      have hright := List.append_cancel_left hoperator
      obtain ⟨rfl, hrest⟩ := ih hright (initial_eq hright)
      exact ⟨rfl, List.append_cancel_left hrest⟩
    | _ => exact absurd hinitial (by simp [initial])
  | binary left operator right ihl ihr =>
    cases e' with
    | binary left' operator' right' =>
      rw [toList_description_binary, toList_description_binary] at h
      simp only [List.append_assoc] at h
      have hleft := List.append_cancel_left h
      obtain ⟨rfl, hlabel⟩ := ihl hleft (initial_eq hleft)
      obtain ⟨rfl, hoperator⟩ := Token.description_cancel (List.append_cancel_left hlabel)
      have hright := List.append_cancel_left hoperator
      obtain ⟨rfl, hrest⟩ := ihr hright (initial_eq hright)
      exact ⟨rfl, List.append_cancel_left hrest⟩
    | _ => exact absurd hinitial (by simp [initial])
  | reference name =>
    cases e' with
    | reference name' =>
      rw [toList_description_reference, toList_description_reference] at h
      simp only [List.append_assoc] at h
      obtain ⟨rfl, hrest⟩ := Token.description_cancel (List.append_cancel_left h)
      exact ⟨rfl, List.append_cancel_left hrest⟩
    | _ => exact absurd hinitial (by simp [initial])
  | unknown =>
    cases e' with
    | unknown =>
      rw [toList_description_unknown] at h
      exact ⟨rfl, List.append_cancel_left h⟩
    | _ => exact absurd hinitial (by simp [initial])

/-- Tokens and trees of any shape are known from their descriptions, the lines of literals and
groupings included. -/
theorem description_injective :
    Function.Injective Token.description ∧ Function.Injective Expr.description := by
  constructor
  · intro t t' h
    have htext : t.description.toList ++ [] = t'.description.toList ++ [] := by rw [h]
    exact (Token.description_cancel htext).1
  · intro e e' h
    have htext : e.description.toList ++ [] = e'.description.toList ++ [] := by rw [h]
    exact (description_cancel htext).1

end Expr

end LoxSyntax
