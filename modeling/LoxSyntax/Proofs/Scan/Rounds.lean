import LoxSyntax.Proofs.Scan.Moments
import Mathlib.Logic.Function.Iterate

/-! # The rounds of a run

Before the end of the source a token is always taken, and it moves the cursor on
(`Scan.exists_scanToken_mark`). So a run is a number of rounds that is at most the number of characters
left, after each of which but the last one something is left to take (`Scan.run_eq_rounds`). -/

namespace LoxSyntax.Scan

variable {s : Scan}

theorem isAtEnd_eq_false_iff : s.isAtEnd = false ↔ ∃ c rest, s.after = c :: rest := by
  rw [isAtEnd, List.isEmpty_eq_false_iff, List.ne_nil_iff_exists_cons]

theorem length_source (s : Scan) : s.source.length = s.current + s.after.length := by
  rw [source_eq_passed, List.length_append, length_passed]

/-- A token taken from the cursor on moves the cursor, and not out of the source. -/
theorem exists_scanToken_mark (h : s.isAtEnd = false) :
    ∃ s', s.mark.scanToken = (.ok (), s') ∧ s'.source = s.source ∧ s.current < s'.current ∧
      s'.current ≤ s.source.length := by
  obtain ⟨c, rest, hafter⟩ := isAtEnd_eq_false_iff.1 h
  have hmark : s.mark.after = c :: rest := hafter
  obtain ⟨segment, -, hstep⟩ := absorbs_scanToken (s := s.mark) rfl hmark
  have hcontinues : Continues s s.mark.scanToken.2 :=
    (Move.mark.moves.trans (moves_scanToken s.mark)).continues
  have hshorter : s.mark.scanToken.2.after.length < s.mark.after.length :=
    scanToken_length_lt s.mark (hmark ▸ List.cons_ne_nil c rest)
  simp only [hstep] at hcontinues hshorter
  have hlength := s.length_source
  have hlength' := (s.mark.absorb segment).length_source
  rw [hcontinues.source_eq] at hlength'
  rw [after_mark] at hshorter
  exact ⟨_, hstep, hcontinues.source_eq, by omega, by omega⟩

theorem length_after_round_lt (h : s.isAtEnd = false) : s.round.after.length < s.after.length := by
  obtain ⟨c, rest, hafter⟩ := isAtEnd_eq_false_iff.1 h
  exact scanToken_length_lt s.mark (by simp [hafter])

/-- By induction on the characters left, which get fewer in each round. -/
theorem exists_rounds (s : Scan) :
    ∃ n ≤ s.after.length, (∀ m < n, (round^[m] s).isAtEnd = false) ∧
      (round^[n] s).isAtEnd = true ∧ s.scanRest = (.ok (), round^[n] s) := by
  induction hn : s.after.length using Nat.strongRecOn generalizing s with
  | ind length ih =>
    cases hend : s.isAtEnd with
    | true =>
      exact ⟨0, Nat.zero_le _, by simp, hend, scanRest_of_nil (List.isEmpty_iff.1 hend)⟩
    | false =>
      have hlt := length_after_round_lt hend
      obtain ⟨n, hle, hbefore, hlast, hrest⟩ := ih _ (hn ▸ hlt) s.round rfl
      obtain ⟨c, rest, hafter⟩ := isAtEnd_eq_false_iff.1 hend
      refine ⟨n + 1, by omega, ?_, hlast, (scanRest_of_cons hafter).trans hrest⟩
      intro m hm
      cases m with
      | zero => exact hend
      | succ m => exact hbefore m (Nat.lt_of_succ_lt_succ hm)

/-- The first run of a scan is at most as many rounds as characters are left, and the end token. -/
theorem run_eq_rounds (hf : s.finished = false) :
    ∃ n, n + s.current ≤ s.source.length ∧
      (∀ m < n, (round^[m] { s with finished := true }).isAtEnd = false) ∧
      (round^[n] { s with finished := true }).isAtEnd = true ∧
      s.run.2 = (round^[n] { s with finished := true }).addEnd ∧
      s.run.1 = .ok s.run.2.tokens.toList := by
  obtain ⟨s', hrest, hrun⟩ := run_of_not_finished hf
  obtain ⟨n, hle, hbefore, hlast, hrounds⟩ := exists_rounds { s with finished := true }
  cases hrest.symm.trans hrounds
  have hlength := s.length_source
  refine ⟨n, ?_, hbefore, hlast, ?_, ?_⟩
  · change n ≤ s.after.length at hle
    omega
  · rw [hrun]
  · rw [hrun]

end LoxSyntax.Scan
