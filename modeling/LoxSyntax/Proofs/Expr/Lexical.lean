import LoxSyntax.Proofs.Run.Spelling
import LoxSyntax.Proofs.Scan.Writing

/-! # Trees of a scan

A token of a scan is known from its lexeme, up to its line (`Token.IsLexical.eraseLine_eq`), and the
trees that tokens of a scan derive have no other operators and names (`Grammar.Derives.isLexical`). -/

namespace LoxSyntax

/-! ## Tokens -/

namespace Token

variable {t t' : Token}

/-- A token of a scan is known from its lexeme, up to its line. -/
theorem IsLexical.eraseLine_eq (h : t.IsLexical) (h' : t'.IsLexical) (hlexeme : t.lexeme = t'.lexeme) :
    t.eraseLine = t'.eraseLine := by
  obtain ⟨s, hs, hmatches⟩ := h
  obtain ⟨s', hs', hmatches'⟩ := h'
  have htext : s.text = s'.text := by
    rw [hmatches.lexeme, hmatches'.lexeme] at hlexeme
    exact String.ofList_injective hlexeme
  have hsame : s = s' := by
    obtain ⟨hl, -⟩ := hs
    obtain ⟨hl', -⟩ := hs'
    obtain rfl := htext
    rw [hl.class_unique hl']
  subst hsame
  exact hmatches.eraseLine_eq hs hmatches'

theorem IsLexical.ext (h : t.IsLexical) (h' : t'.IsLexical) (hlexeme : t.lexeme = t'.lexeme)
    (hline : t.line = t'.line) : t = t' := by
  have herase := h.eraseLine_eq h' hlexeme
  obtain ⟨kind, lexeme, literal, line⟩ := t
  obtain ⟨kind', lexeme', literal', line'⟩ := t'
  obtain ⟨rfl, rfl, rfl, -⟩ := Token.mk.inj herase
  obtain rfl : line = line' := hline
  rfl

theorem WellFormedAfter.isLexical {line : Int} {ts : List Token} (h : WellFormedAfter line ts) :
    ∀ t ∈ ts, t.isEnd = false → t.IsLexical := by
  induction h with
  | ending =>
    intro t ht hend
    obtain rfl := List.mem_singleton.1 ht
    cases hend
  | cons hlexical _ _ ih => exact List.forall_mem_cons.2 ⟨fun _ => hlexical, ih⟩

end Token

/-! ## Trees -/

/-- Each operator and each name is what a scan makes of its lexeme. -/
def Expr.IsLexical : Expr → Prop
  | literal .. | unknown => True
  | grouping inner _ => inner.IsLexical
  | unary operator right => operator.IsLexical ∧ right.IsLexical
  | binary left operator right => left.IsLexical ∧ operator.IsLexical ∧ right.IsLexical
  | reference name => name.IsLexical

theorem Grammar.Derives.isLexical {rule : Rule} {ts : List Token} {e : Expr}
    (h : Grammar.Derives rule ts e) (hts : ∀ t ∈ ts, t.IsLexical) : e.IsLexical := by
  induction h with
  | descend _ _ ih => exact ih hts
  | binary _ _ _ _ ihl ihr =>
    obtain ⟨hls, hrest⟩ := List.forall_mem_append.1 hts
    obtain ⟨hoperator, hrs⟩ := List.forall_mem_cons.1 hrest
    exact ⟨ihl hls, hoperator, ihr hrs⟩
  | unary _ _ ih =>
    obtain ⟨hoperator, hright⟩ := List.forall_mem_cons.1 hts
    exact ⟨hoperator, ih hright⟩
  | @leaf t e h =>
    have ht : t.IsLexical := hts t (List.mem_singleton_self t)
    simp only [Token.leaf?] at h
    split at h <;> cases h
    all_goals first | exact trivial | exact ht
  | grouping _ _ _ ih =>
    obtain ⟨hinner, -⟩ := List.forall_mem_append.1 (List.forall_mem_cons.1 hts).2
    exact ih hinner

end LoxSyntax
