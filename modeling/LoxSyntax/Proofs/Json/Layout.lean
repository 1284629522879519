import LoxSyntax.Proofs.Json.Quote
import LoxSyntax.Proofs.Number.Layout

/-! # Reading back a document

A document is known from its text (`Json.Value.layout_injective`). The first character of a value
says which form it has; a number ends where a comma, a line end or nothing follows, a text at its
mark, and an object is read entry by entry (`Json.Value.cancels`). -/

namespace LoxSyntax.Json

variable {x x' : List Char} {n n' : Int} {c : Char}

/-- What may follow a value. -/
def Stops (x : List Char) : Prop := ∀ c ∈ x.head?, c = ',' ∨ c = '\n'

/-- What may follow the entries of an object. -/
def Ends (x : List Char) : Prop := ∀ c ∈ x.head?, c = '\n'

/-! ## Numerals -/

theorem mem_toList_toString (hc : c ∈ (toString n).toList) : c.isDigit ∨ c = '-' := by
  rw [Int.toString_eq_repr, Int.repr_eq_if] at hc
  split at hc
  · rw [Nat.toList_repr] at hc
    exact .inl (Number.isDigit_of_mem_toDigits _ c hc)
  · rw [String.toList_append, Nat.toList_repr] at hc
    rcases List.mem_append.1 hc with hc | hc
    · exact .inr (List.mem_singleton.1 hc)
    · exact .inl (Number.isDigit_of_mem_toDigits _ c hc)

theorem toString_injective (h : toString n = toString n') : n = n' := by
  have hdigits : ∀ {m k : Nat}, m.repr = k.repr → m = k := by
    intro m k h
    have hlist := congrArg (fun s => Number.digitsValue s.toList) h
    simpa [Number.digitsValue_toDigits] using hlist
  have hminus : ∀ m k : Nat, m.repr ≠ "-" ++ k.repr := by
    intro m k h
    have hmem : '-' ∈ m.repr.toList := by simp [h]
    rw [Nat.toList_repr] at hmem
    exact absurd (Number.isDigit_of_mem_toDigits m _ hmem) (by decide)
  rw [Int.toString_eq_repr, Int.toString_eq_repr, Int.repr_eq_if, Int.repr_eq_if] at h
  split at h
  · split at h
    · have := hdigits h
      omega
    · exact absurd h (hminus _ _)
  · split at h
    · exact absurd h.symm (hminus _ _)
    · have := hdigits (String.append_right_inj _ |>.1 h)
      omega

theorem toList_toString_ne_nil (n : Int) : (toString n).toList ≠ [] := by
  rw [Int.toString_eq_repr, Int.repr_eq_if]
  split <;> simp

/-- Text of one word up to its end. -/
theorem word_cancel {w w' : List Char} (hw : ∀ c ∈ w, c ≠ ',' ∧ c ≠ '\n')
    (hw' : ∀ c ∈ w', c ≠ ',' ∧ c ≠ '\n') (hx : Stops x) (hx' : Stops x')
    (h : w ++ x = w' ++ x') : w = w' ∧ x = x' := by
  let inside : Char → Bool := fun c => c ≠ ',' && c ≠ '\n'
  have hword : ∀ {w : List Char}, (∀ c ∈ w, c ≠ ',' ∧ c ≠ '\n') → ∀ c ∈ w, inside c = true := by
    intro w hw c hc
    simpa [inside] using hw c hc
  have hstop : ∀ {x : List Char}, Stops x → ∀ c ∈ x.head?, inside c = false := by
    intro x hx c hc
    rcases hx c hc with rfl | rfl <;> rfl
  exact run_unique (hword hw) (hstop hx) (hword hw') (hstop hx') h

/-! ## Forms -/

/-- What the first character of a value tells. -/
inductive Form
  | null | bool | numeral | text | object
  deriving DecidableEq

def Form.ofHead (c : Char) : Form :=
  if c = 'n' then null
  else if c = 't' || c = 'f' then bool
  else if c = '"' then text
  else if c = '\x7b' then object
  else numeral

def Value.form : Value → Form
  | .null => .null
  | .bool _ => .bool
  | .integer _ | .number _ => .numeral
  | .text _ => .text
  | .object _ => .object

theorem Form.ofHead_numeral (h : c.isDigit = true ∨ c ∈ ['-', 'I', 'N']) :
    ofHead c = numeral := by
  have hne : ∀ d ∈ ['n', 't', 'f', '"', '\x7b'], c ≠ d := by
    rintro d hd rfl
    revert h hd
    simp only [List.mem_cons, List.not_mem_nil, or_false]
    rintro h (rfl | rfl | rfl | rfl | rfl) <;> revert h <;> decide
  simp only [List.forall_mem_cons] at hne
  simp [ofHead, hne]

/-- An entry and those after it, from the line of the entry on. -/
def entryText (depth : Nat) (name : String) (value : Value) (rest : Entries) : List Char :=
  (indentation depth).toList ++ ((quote name).toList ++ ':' :: ' ' ::
    ((value.layout depth).toList ++ (rest.layout depth).toList))

theorem toList_layout_entry (depth : Nat) (name : String) (value : Value) (rest : Entries) :
    ((Value.object (.entry name value rest)).layout depth).toList =
      '\x7b' :: '\n' :: (entryText (depth + 1) name value rest ++
        '\n' :: ((indentation depth).toList ++ ['\x7d'])) := by
  simp [Value.layout, entryText]

theorem toList_layout_rest (depth : Nat) (name : String) (value : Value) (rest : Entries) :
    ((Entries.entry name value rest).layout depth).toList =
      ',' :: '\n' :: entryText depth name value rest := by
  simp [Entries.layout, entryText]

theorem toList_layout_null (depth : Nat) :
    (Value.null.layout depth).toList = ['n', 'u', 'l', 'l'] := by
  rw [Value.layout]
  rfl

theorem toList_layout_false (depth : Nat) :
    ((Value.bool false).layout depth).toList = ['f', 'a', 'l', 's', 'e'] := by
  rw [Value.layout]
  rfl

theorem toList_layout_true (depth : Nat) :
    ((Value.bool true).layout depth).toList = ['t', 'r', 'u', 'e'] := by
  rw [Value.layout]
  rfl

theorem toList_layout_empty (depth : Nat) :
    ((Value.object .empty).layout depth).toList = ['\x7b', '\x7d'] := by
  rw [Value.layout]
  rfl

theorem Value.head_layout (v : Value) (depth : Nat) :
    ∃ c cs, (v.layout depth).toList = c :: cs ∧ Form.ofHead c = v.form := by
  cases v with
  | null => exact ⟨'n', _, toList_layout_null depth, rfl⟩
  | bool value =>
    cases value with
    | false => exact ⟨'f', _, toList_layout_false depth, rfl⟩
    | true => exact ⟨'t', _, toList_layout_true depth, rfl⟩
  | integer n =>
    obtain ⟨c, cs, hcs⟩ := List.exists_cons_of_ne_nil (toList_toString_ne_nil n)
    have hc : c ∈ (toString n).toList := hcs ▸ List.mem_cons_self
    refine ⟨c, cs, hcs, Form.ofHead_numeral ((mem_toList_toString hc).imp_right ?_)⟩
    rintro rfl
    exact List.mem_cons_self
  | number number =>
    obtain ⟨d, hd, -⟩ := number.exists_mark_mem_jsonText
    obtain ⟨c, cs, hcs⟩ := List.exists_cons_of_ne_nil (List.ne_nil_of_mem hd)
    have hc : c ∈ number.jsonText.toList.head? := by
      rw [hcs]
      rfl
    exact ⟨c, cs, hcs, Form.ofHead_numeral (Number.head_jsonText hc)⟩
  | text value => exact ⟨'"', _, toList_quote value, rfl⟩
  | object entries =>
    cases entries with
    | empty => exact ⟨'\x7b', _, toList_layout_empty depth, rfl⟩
    | entry name value rest => exact ⟨'\x7b', _, toList_layout_entry .., rfl⟩

/-! ## Values one by one -/

theorem Value.form_eq (v v' : Value) {depth : Nat}
    (h : (v.layout depth).toList ++ x = (v'.layout depth).toList ++ x') : v.form = v'.form := by
  obtain ⟨c, cs, hcs, hc⟩ := v.head_layout depth
  obtain ⟨c', cs', hcs', hc'⟩ := v'.head_layout depth
  rw [hcs, hcs'] at h
  rw [← hc, ← hc', (List.cons.inj h).1]

theorem numeral_char {v : Value} {depth : Nat} (hv : v.form = .numeral)
    (hc : c ∈ (v.layout depth).toList) : c ≠ ',' ∧ c ≠ '\n' := by
  have hdigit : c.isDigit = true → c ≠ ',' ∧ c ≠ '\n' := fun h => ⟨ne_of_apart h rfl, ne_of_apart h rfl⟩
  have hmember : ∀ cs : List Char, ',' ∉ cs → '\n' ∉ cs → c ∈ cs → c ≠ ',' ∧ c ≠ '\n' := by
    rintro cs hcomma hline hmem
    exact ⟨fun h => hcomma (h ▸ hmem), fun h => hline (h ▸ hmem)⟩
  cases v with
  | integer n =>
    rcases mem_toList_toString hc with h | rfl
    · exact hdigit h
    · decide
  | number number =>
    rcases Number.mem_jsonText hc with h | h | h | h
    · exact hdigit h
    · exact hmember _ (by decide) (by decide) h
    · exact hmember _ (by decide) (by decide) h
    · exact hmember _ (by decide) (by decide) h
  | null | bool | text | object => cases hv

theorem toString_ne_jsonText (n : Int) (number : Number) : toString n ≠ number.jsonText := by
  intro h
  obtain ⟨c, hc, hdigit, hminus⟩ := number.exists_mark_mem_jsonText
  rcases mem_toList_toString (h ▸ hc) with h | h
  · simp [hdigit] at h
  · exact hminus h

theorem numeral_cancel {v v' : Value} {depth : Nat} (hv : v.form = .numeral)
    (hv' : v'.form = .numeral) (hx : Stops x) (hx' : Stops x')
    (h : (v.layout depth).toList ++ x = (v'.layout depth).toList ++ x') : v = v' ∧ x = x' := by
  obtain ⟨htext, rfl⟩ := word_cancel (fun _ => numeral_char hv) (fun _ => numeral_char hv') hx hx' h
  refine ⟨?_, rfl⟩
  replace htext := String.toList_inj.1 htext
  cases v with
  | integer n =>
    cases v' with
    | integer n' => rw [toString_injective htext]
    | number number' => exact absurd htext (toString_ne_jsonText n number')
    | null | bool | text | object => cases hv'
  | number number =>
    cases v' with
    | integer n' => exact absurd htext.symm (toString_ne_jsonText n' number)
    | number number' => rw [Number.jsonText_injective htext]
    | null | bool | text | object => cases hv'
  | null | bool | text | object => cases hv

theorem stops_layout_append (rest : Entries) (depth : Nat) (hx : Ends x) :
    Stops ((rest.layout depth).toList ++ x) := by
  cases rest with
  | empty => exact fun c hc => .inr (hx c (by simpa [Entries.layout] using hc))
  | entry name value rest =>
    rw [toList_layout_rest]
    rintro c ⟨⟩
    exact .inl rfl

/-! ## Documents -/

/-- The value is known from its text, whatever follows it in a document. -/
def Value.Cancels (v : Value) : Prop :=
  ∀ (v' : Value) (depth : Nat) (x x' : List Char), Stops x → Stops x' →
    (v.layout depth).toList ++ x = (v'.layout depth).toList ++ x' → v = v' ∧ x = x'

/-- The entries are known from their text, whatever follows them in a document. -/
def Entries.Cancels (es : Entries) : Prop :=
  ∀ (es' : Entries) (depth : Nat) (x x' : List Char), Ends x → Ends x' →
    (es.layout depth).toList ++ x = (es'.layout depth).toList ++ x' → es = es' ∧ x = x'

theorem Value.cancels_null : Value.null.Cancels := by
  intro v' depth x x' _ _ h
  have hform := form_eq _ _ h
  cases v' with
  | null => exact ⟨rfl, List.append_cancel_left h⟩
  | bool | integer | number | text | object => cases hform

theorem Value.cancels_bool (value : Bool) : (Value.bool value).Cancels := by
  intro v' depth x x' _ _ h
  have hform := form_eq _ _ h
  cases v' with
  | bool value' =>
    have hvalue : value = value' := by
      cases value with
      | false =>
        cases value' with
        | false => rfl
        | true =>
          rw [toList_layout_false, toList_layout_true] at h
          cases (List.cons.inj h).1
      | true =>
        cases value' with
        | false =>
          rw [toList_layout_false, toList_layout_true] at h
          cases (List.cons.inj h).1
        | true => rfl
    subst hvalue
    exact ⟨rfl, List.append_cancel_left h⟩
  | null | integer | number | text | object => cases hform

theorem Value.cancels_numeral {v : Value} (hv : v.form = .numeral) : v.Cancels := by
  intro v' depth x x' hx hx' h
  exact numeral_cancel hv (v.form_eq v' h ▸ hv) hx hx' h

theorem Value.cancels_text (value : String) : (Value.text value).Cancels := by
  intro v' depth x x' _ _ h
  have hform := form_eq _ _ h
  cases v' with
  | text value' =>
    obtain ⟨rfl, rfl⟩ := quote_cancel h
    exact ⟨rfl, rfl⟩
  | null | bool | integer | number | object => cases hform

theorem Value.cancels_empty : (Value.object .empty).Cancels := by
  intro v' depth x x' _ _ h
  have hform := form_eq _ _ h
  cases v' with
  | object entries' =>
    cases entries' with
    | empty => exact ⟨rfl, List.append_cancel_left h⟩
    | entry name' value' rest' =>
      rw [toList_layout_empty, toList_layout_entry] at h
      cases (List.cons.inj (List.cons.inj h).2).1
  | null | bool | integer | number | text => cases hform

theorem ends_cons (x : List Char) : Ends ('\n' :: x) := by
  intro c hc
  cases hc
  rfl

theorem entryText_cancel {name name' : String} {value value' : Value} {rest rest' : Entries}
    {depth : Nat} (hvalue : value.Cancels) (hrest : rest.Cancels) (hx : Ends x) (hx' : Ends x')
    (h : entryText depth name value rest ++ x = entryText depth name' value' rest' ++ x') :
    Entries.entry name value rest = .entry name' value' rest' ∧ x = x' := by
  simp only [entryText, List.append_assoc] at h
  obtain ⟨rfl, hnamed⟩ := quote_cancel (List.append_cancel_left h)
  simp only [List.cons_append, List.append_assoc] at hnamed
  obtain ⟨rfl, hfirst⟩ := hvalue value' depth _ _ (stops_layout_append rest _ hx)
    (stops_layout_append rest' _ hx') (List.cons.inj (List.cons.inj hnamed).2).2
  obtain ⟨rfl, htail⟩ := hrest rest' depth _ _ hx hx' hfirst
  exact ⟨rfl, htail⟩

theorem Value.cancels_entry (name : String) {value : Value} {rest : Entries}
    (hvalue : value.Cancels) (hrest : rest.Cancels) :
    (Value.object (.entry name value rest)).Cancels := by
  intro v' depth x x' _ _ h
  have hform := form_eq _ _ h
  cases v' with
  | object entries' =>
    cases entries' with
    | empty =>
      rw [toList_layout_empty, toList_layout_entry] at h
      cases (List.cons.inj (List.cons.inj h).2).1
    | entry name' value' rest' =>
      rw [toList_layout_entry, toList_layout_entry] at h
      simp only [List.cons_append, List.append_assoc] at h
      obtain ⟨hentries, hclosed⟩ := entryText_cancel hvalue hrest (ends_cons _) (ends_cons _)
        (List.cons.inj (List.cons.inj h).2).2
      have hbrace := List.append_cancel_left (List.cons.inj hclosed).2
      exact ⟨congrArg _ hentries, (List.cons.inj hbrace).2⟩
  | null | bool | integer | number | text => cases hform

theorem Entries.ne_of_ends {name : String} {value : Value} {rest : Entries} {depth : Nat}
    (hx : Ends x) : x ≠ ((Entries.entry name value rest).layout depth).toList ++ x' := by
  rintro rfl
  rw [toList_layout_rest] at hx
  cases hx ',' rfl

theorem Entries.cancels_empty : Entries.empty.Cancels := by
  intro es' depth x x' hx _ h
  rw [Entries.layout] at h
  cases es' with
  | empty => exact ⟨rfl, List.append_cancel_left h⟩
  | entry name' value' rest' => exact absurd h (ne_of_ends hx)

theorem Entries.cancels_entry (name : String) {value : Value} {rest : Entries}
    (hvalue : value.Cancels) (hrest : rest.Cancels) : (Entries.entry name value rest).Cancels := by
  intro es' depth x x' hx hx' h
  cases es' with
  | empty => exact absurd h.symm (ne_of_ends hx')
  | entry name' value' rest' =>
    rw [toList_layout_rest, toList_layout_rest] at h
    exact entryText_cancel hvalue hrest hx hx' (List.cons.inj (List.cons.inj h).2).2

mutual

theorem Value.cancels : ∀ v : Value, v.Cancels
  | .null => Value.cancels_null
  | .bool value => Value.cancels_bool value
  | .integer _ | .number _ => Value.cancels_numeral rfl
  | .text value => Value.cancels_text value
  | .object .empty => Value.cancels_empty
  | .object (.entry name value rest) => Value.cancels_entry name value.cancels rest.cancels

theorem Entries.cancels : ∀ es : Entries, es.Cancels
  | .empty => Entries.cancels_empty
  | .entry name value rest => Entries.cancels_entry name value.cancels rest.cancels

end

/-- A document is known from its text. -/
theorem Value.layout_injective (depth : Nat) : Function.Injective (Value.layout depth) := by
  intro v v' h
  have hend : Stops [] := fun c hc => by cases hc
  exact (v.cancels v' depth [] [] hend hend (by rw [h])).1

end LoxSyntax.Json
