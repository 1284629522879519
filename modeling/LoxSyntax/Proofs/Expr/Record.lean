import LoxSyntax.Expr.Record
import LoxSyntax.Proofs.Expr.Lexical

/-! # What a record keeps of a tree

A record has the lexemes and the lines of operators and names, and leaves out their kinds and their
values. On trees whose operators and names are what a scan makes of their lexemes nothing is lost
(`Expr.record_injective`). -/

namespace LoxSyntax

theorem Literal.record_injective : Function.Injective Literal.record := by
  intro a b h
  cases a <;> cases b <;> cases h <;> rfl

namespace Expr

variable {e e' : Expr} {parts parts' : Json.Entries}

theorem recordWith_inj (h : recordWith e parts = recordWith e' parts') :
    e.kindName = e'.kindName ∧ e.line = e'.line ∧ parts = parts' := by
  simpa [recordWith] using h

theorem kindName_eq (h : e.record = e'.record) : e.kindName = e'.kindName := by
  cases e <;> cases e' <;> exact (recordWith_inj h).1

/-- A tree of a scan is known from its record. -/
theorem record_injective (h : e.IsLexical) (h' : e'.IsLexical) (heq : e.record = e'.record) :
    e = e' := by
  induction e generalizing e' with
  | literal value line =>
    cases e' with
    | literal value' line' =>
      obtain ⟨-, hline, hparts⟩ := recordWith_inj heq
      obtain ⟨-, hvalue, -⟩ := Json.Entries.entry.inj hparts
      obtain rfl : line = line' := hline
      rw [Literal.record_injective hvalue]
    | _ => exact absurd (kindName_eq heq) (by simp [kindName])
  | grouping inner line ih =>
    cases e' with
    | grouping inner' line' =>
      obtain ⟨-, hline, hparts⟩ := recordWith_inj heq
      obtain ⟨-, hinner, -⟩ := Json.Entries.entry.inj hparts
      obtain rfl : line = line' := hline
      have hlexical : inner'.IsLexical := h'
      rw [ih h hlexical hinner]
    | _ => exact absurd (kindName_eq heq) (by simp [kindName])
  | unary operator right ih =>
    cases e' with
    | unary operator' right' =>
      obtain ⟨-, hline, hparts⟩ := recordWith_inj heq
      obtain ⟨-, hlexeme, hrest⟩ := Json.Entries.entry.inj hparts
      obtain ⟨-, hright, -⟩ := Json.Entries.entry.inj hrest
      rw [h.1.ext h'.1 (Json.Value.text.inj hlexeme) hline, ih h.2 h'.2 hright]
    | _ => exact absurd (kindName_eq heq) (by simp [kindName])
  | binary left operator right ihl ihr =>
    cases e' with
    | binary left' operator' right' =>
      obtain ⟨hl, hoperator, hr⟩ := h
      obtain ⟨hl', hoperator', hr'⟩ := h'
      obtain ⟨-, hline, hparts⟩ := recordWith_inj heq
      obtain ⟨-, hlexeme, hrest⟩ := Json.Entries.entry.inj hparts
      obtain ⟨-, hleft, hlast⟩ := Json.Entries.entry.inj hrest
      obtain ⟨-, hright, -⟩ := Json.Entries.entry.inj hlast
      rw [hoperator.ext hoperator' (Json.Value.text.inj hlexeme) hline,
        ihl hl hl' hleft, ihr hr hr' hright]
    | _ => exact absurd (kindName_eq heq) (by simp [kindName])
  | reference name =>
    cases e' with
    | reference name' =>
      obtain ⟨-, hline, hparts⟩ := recordWith_inj heq
      obtain ⟨-, hlexeme, -⟩ := Json.Entries.entry.inj hparts
      have hname : name.IsLexical := h
      rw [hname.ext h' (Json.Value.text.inj hlexeme) hline]
    | _ => exact absurd (kindName_eq heq) (by simp [kindName])
  | unknown =>
    cases e' with
    | unknown => rfl
    | _ => exact absurd (kindName_eq heq) (by simp [kindName])

end Expr

end LoxSyntax
