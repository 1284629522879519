import LoxSyntax.Proofs.Run.Rendering

/-! # Long sums

A sum is read whatever its length, since a chain of operators has no nesting (`runSource_sumOfOnes`). But
each of its operators makes the tree deeper, until there is no room to write it
(`exists_runSource_sumOfOnes_not_fits`). -/

namespace LoxSyntax

open Segment Grammar

/-- A sum of ones with `n` plus signs. -/
def sumOfOnes (n : Nat) : String := .ofList ('1' :: (List.replicate n ['+', '1']).flatten)

def Segment.one : Segment := ⟨.lexeme .number, ['1']⟩

def Segment.plus : Segment := ⟨.lexeme .punctuation, ['+']⟩

def Token.one : Token := ⟨.number, "1", .number (.signed false (Decimal.ofLexeme ['1']).nearest), 1⟩

def Token.plus : Token := ⟨.plus, "+", .nil, 1⟩

def Expr.one : Expr := .literal Token.one.literal 1

/-- The expression with `n` times one added. -/
def Expr.plusOnes : Nat → Expr → Expr
  | 0, e => e
  | n + 1, e => plusOnes n (.binary e .plus .one)

theorem divides_sumOfOnes (n : Nat) :
    Divides (sumOfOnes n).toList
      (Segment.one :: (List.replicate n [Segment.plus, Segment.one]).flatten) := by
  rw [sumOfOnes, String.toList_ofList]
  induction n with
  | zero =>
    have hone : StandsBefore Segment.one [] := .integer rfl (by simp) (by simp) (by simp)
    exact .cons hone.cut rfl .nil
  | succ n ih =>
    have hone : StandsBefore Segment.one ('+' :: '1' :: (List.replicate n ['+', '1']).flatten) :=
      .integer rfl (by simp) (by rintro d ⟨⟩; rfl) (by simp)
    exact .cons hone.cut rfl (.cons (.punctuation rfl) rfl ih)

theorem tokens_sumOfOnes (n : Nat) :
    tokens 1 (Segment.one :: (List.replicate n [Segment.plus, Segment.one]).flatten) =
      Token.one :: (List.replicate n [Token.plus, Token.one]).flatten := by
  have hrest : tokens 1 (List.replicate n [Segment.plus, Segment.one]).flatten =
      (List.replicate n [Token.plus, Token.one]).flatten := by
    induction n with
    | zero => rfl
    | succ n ih => exact congrArg (Token.plus :: Token.one :: ·) ih
  exact congrArg (Token.one :: ·) hrest

theorem diagnostics_sumOfOnes (n : Nat) :
    diagnostics 1 (Segment.one :: (List.replicate n [Segment.plus, Segment.one]).flatten) = [] := by
  have hrest : diagnostics 1 (List.replicate n [Segment.plus, Segment.one]).flatten = [] := by
    induction n with
    | zero => rfl
    | succ n ih => exact ih
  exact hrest

/-- The tree grows to the left, one operator after the other. -/
theorem derives_plusOnes {ts : List Token} {e : Expr} (h : Derives .term ts e) (n : Nat) :
    Derives .term (ts ++ (List.replicate n [Token.plus, Token.one]).flatten) (e.plusOnes n) := by
  induction n generalizing ts e with
  | zero => simpa [Expr.plusOnes] using h
  | succ n ih =>
    have hone : Derives .factor [Token.one] .one := .descend rfl (.descend rfl (.leaf rfl))
    have hsum : Derives .term (ts ++ [Token.plus, Token.one]) (.binary e .plus .one) :=
      .binary rfl (by decide) h hone
    simpa [List.replicate_succ, Expr.plusOnes] using ih hsum

theorem Expr.depth_plusOnes (n : Nat) (e : Expr) : (e.plusOnes n).depth = e.depth + n := by
  induction n generalizing e with
  | zero => rfl
  | succ n ih => rw [plusOnes, ih, depth, one, depth]; omega

theorem Modes.not_fits_plusOnes {modes : Modes} {n : Nat} (hm : modes.tokens = false)
    (h : Expr.defaultRoom < modes.cost * n) :
    ¬ modes.Fits Expr.defaultRoom ⟨some (Expr.one.plusOnes n), []⟩ := by
  have hdepth : (Expr.one.plusOnes n).depth = n := (Expr.depth_plusOnes n .one).trans (Nat.zero_add n)
  simpa [Fits, hm, hdepth] using h

theorem Expr.nesting_plusOnes (n : Nat) (e : Expr) : (e.plusOnes n).nesting = e.nesting := by
  induction n generalizing e with
  | zero => rfl
  | succ n ih => rw [plusOnes, ih, nesting, one, nesting, Nat.max_zero]

/-- A sum of any length is read, without a diagnostic. -/
theorem runSource_sumOfOnes (n : Nat) (reporter : Reporter) :
    ∃ tokens, runSource (sumOfOnes n) reporter =
      (.ok (tokens, ⟨some (Expr.one.plusOnes n), []⟩), reporter) := by
  have hscan := scanSource_eq (divides_sumOfOnes n) reporter
  rw [tokens_sumOfOnes, diagnostics_sumOfOnes, Reporter.reportAll_nil] at hscan
  have hone : Derives .term [Token.one] .one := .descend rfl (.descend rfl (.descend rfl (.leaf rfl)))
  have hsum : Derives .expression (Token.one :: (List.replicate n [Token.plus, Token.one]).flatten)
      (Expr.one.plusOnes n) :=
    .descend rfl (.descend rfl (.descend rfl (derives_plusOnes hone n)))
  refine ⟨_, runSource_of_derives hscan (closed_append_end rfl) ?_ ?_⟩
  · rwa [List.takeWhile_append_of_pos fun t ht => by simp [hsum.isEnd_eq_false t ht],
      List.takeWhile_cons_of_neg (by simp [Token.ending, Token.isEnd]), List.append_nil]
  · rw [Expr.nesting_plusOnes]
    exact Nat.zero_le _

/-- There is nothing wrong with a long sum, and no room to write it. -/
theorem exists_runSource_sumOfOnes_not_fits {modes : Modes} {n : Nat} (hm : modes.tokens = false)
    (h : Expr.defaultRoom < modes.cost * n) :
    ∃ tokens result, runSource (sumOfOnes n) {} = (.ok (tokens, result), {}) ∧
      ¬ modes.Fits Expr.defaultRoom result := by
  obtain ⟨tokens, hrun⟩ := runSource_sumOfOnes n {}
  exact ⟨tokens, _, hrun, Modes.not_fits_plusOnes hm h⟩

end LoxSyntax
