import LoxSyntax.Proofs.Expr.Room
import LoxSyntax.Proofs.Run.RoundTrip
import LoxSyntax.Run.Basic

/-! # What a run has room to write

Every tree that is read has a prefix text, so a run writes what it is asked for unless the tree is too
deep for the room that there is (`Modes.Fits`). -/

namespace LoxSyntax

variable {rule : Rule} {ts tokens : List Token} {e : Expr} {result : ParseResult} {modes : Modes}
  {source stdout : String} {reporter reporter' : Reporter} {room : Nat}

theorem Grammar.Derives.exists_prefixText (h : Grammar.Derives rule ts e) :
    ∃ text, e.prefixText = .ok text := by
  induction h with
  | descend _ _ ih => exact ih
  | binary _ _ _ _ ihl ihr =>
    obtain ⟨left, hl⟩ := ihl
    obtain ⟨right, hr⟩ := ihr
    exact ⟨_, by rw [Expr.prefixText, hl, hr]; rfl⟩
  | unary _ _ ih =>
    obtain ⟨right, hr⟩ := ih
    exact ⟨_, by rw [Expr.prefixText, hr]; rfl⟩
  | leaf h =>
    simp only [Token.leaf?] at h
    split at h <;> cases h <;> exact ⟨_, rfl⟩
  | grouping _ _ _ ih =>
    obtain ⟨inner, hi⟩ := ih
    exact ⟨_, by rw [Expr.prefixText, hi]; rfl⟩

theorem Text.unlines_singleton (line : String) : Text.unlines [line] = line ++ "\n" := by
  simp [Text.unlines]

theorem Text.unlines_singleton_ne_empty (line : String) : Text.unlines [line] ≠ "" := by
  intro hempty
  have := congrArg String.toList hempty
  simp [Text.unlines] at this

namespace Modes

/-- How many calls lead from a node to its operand when the expression is written as the modes ask. -/
def cost (modes : Modes) : Nat := if modes.json then Expr.recordCost else Expr.textCost

/-- There is room for what the modes ask for: always for tokens, and for an expression up to a certain
depth. -/
def Fits (modes : Modes) (room : Nat) (result : ParseResult) : Prop :=
  modes.tokens = true ∨ ∀ e ∈ result.expr, modes.cost * e.depth ≤ room

/-- The line that an expression is written as, whatever room there is. -/
def line (modes : Modes) (e : Expr) : Except Expr.TextFault String :=
  if modes.json then .ok (e.record.layout 0) else e.prefixText

/-- An expression is written as far as there is room. -/
theorem render_eq_reach {line : String} (hm : modes.tokens = false) (he : result.expr = some e)
    (hline : modes.line e = .ok line) (room : Nat) :
    modes.render tokens result room =
      Expr.reach modes.cost room e.depth (Text.unlines [line]) := by
  cases hjson : modes.json with
  | true =>
    simp only [Modes.line, hjson, if_true] at hline
    cases hline
    simp only [render, hm, he, hjson, cost, Expr.recordWithin_eq, if_true, Bool.false_eq_true,
      if_false]
    exact Expr.map_reach (fun record : Json.Value => Text.unlines [record.layout 0]) _
  | false =>
    simp only [Modes.line, hjson, Bool.false_eq_true, if_false] at hline
    simp only [render, hm, he, hjson, cost, Expr.prefixTextWithin_eq hline, Bool.false_eq_true,
      if_false]
    exact Expr.map_reach (fun line => Text.unlines [line]) _

variable (h : runSource source reporter = (.ok (tokens, result), reporter'))

include h

theorem exists_line_eq (modes : Modes) (he : result.expr = some e) :
    ∃ line, modes.line e = .ok line := by
  rw [Modes.line]
  split
  · exact ⟨_, rfl⟩
  · obtain ⟨ts, hderives⟩ := exists_derives_of_runSource h he
    exact hderives.exists_prefixText

/-- With enough room a run writes what the modes ask for, and without the tokens something is written
exactly if there is an expression. -/
theorem exists_render_of_fits (hfits : modes.Fits room result) :
    ∃ stdout, modes.render tokens result room = .ok stdout ∧
      (modes.tokens = false → (stdout = "" ↔ result.expr = none)) := by
  cases hm : modes.tokens with
  | true => exact ⟨_, by rw [render, if_pos hm], by simp⟩
  | false =>
    cases he : result.expr with
    | none => exact ⟨"", by simp [render, hm, he], by simp⟩
    | some e =>
      obtain ⟨line, hline⟩ := modes.exists_line_eq h he
      have hroom : modes.cost * e.depth ≤ room := hfits.resolve_left (by simp [hm]) e he
      refine ⟨_, (render_eq_reach hm he hline room).trans (Expr.reach_of_le hroom _), fun _ => ?_⟩
      simp [Text.unlines_singleton_ne_empty]

/-- Without enough room nothing is written. -/
theorem render_of_not_fits (hfits : ¬ modes.Fits room result) :
    modes.render tokens result room = .error .tooDeep := by
  obtain ⟨hm, hdeep⟩ := not_or.1 hfits
  push Not at hdeep
  obtain ⟨e, he, hdeep⟩ := hdeep
  obtain ⟨line, hline⟩ := modes.exists_line_eq h he
  exact (render_eq_reach (by simpa using hm) he hline room).trans (Expr.reach_of_lt hdeep _)

end Modes

end LoxSyntax
