import LoxSyntax.Proofs.Grammar.Blocking
import LoxSyntax.Proofs.Grammar.Unlimited

/-! # What a limit changes

The tokens alone decide where reading comes to its end and what it comes to, if the nesting is in the
budget (`Settles.unique`). So a reader with a budget either agrees with the one without a limit, or it
stops at the first point above the budget, according to the greatest weight on the way
(`readAll_eq_readUnlimited`, `readAll_tooDeep`). -/

namespace LoxSyntax

namespace Grammar

open Progress

variable {p q q' : Progress} {us us' rest rest' tokens : List Token} {budget limit : Nat}
  {o o' : Outcome}

/-! ## The end of a reading -/

/-- Runs of one list that nothing goes on from come to one point. -/
theorem Progress.run_stuck_unique (heq : us ++ rest = us' ++ rest') (h : run p us = some q)
    (hstuck : ∀ t ∈ rest.head?, q.step t = none) (h' : run p us' = some q')
    (hstuck' : ∀ t ∈ rest'.head?, q'.step t = none) : us = us' ∧ rest = rest' ∧ q = q' := by
  induction us generalizing p us' with
  | nil =>
    cases us' with
    | nil => exact ⟨rfl, heq, Option.some.inj (h.symm.trans h')⟩
    | cons u' us' =>
      cases h
      obtain ⟨r, hr, -⟩ := Option.bind_eq_some_iff.mp h'
      obtain rfl : rest = u' :: (us' ++ rest') := heq
      simp [hstuck u' rfl] at hr
  | cons u us ih =>
    obtain ⟨r, hr, hrun⟩ := Option.bind_eq_some_iff.mp h
    cases us' with
    | nil =>
      cases h'
      obtain rfl : u :: (us ++ rest) = rest' := heq
      simp [hstuck' u rfl] at hr
    | cons u' us' =>
      obtain ⟨rfl, hrest⟩ := List.cons.inj heq
      obtain ⟨r', hr', hrun'⟩ := Option.bind_eq_some_iff.mp h'
      cases hr.symm.trans hr'
      obtain ⟨rfl, hsame⟩ := ih hrest hrun hrun'
      exact ⟨rfl, hsame⟩

theorem Progress.step_eq_none_of_isEnd {t : Token} (h : t.isEnd = true) : q.step t = none := by
  cases hstep : q.step t with
  | none => rfl
  | some r => simp [isEnd_eq_false_of_step hstep] at h

/-- What reading all tokens comes to when it is not stopped on the way: the tree of a sentence before
an end token, or the failure of the first token that cannot come next. -/
inductive Settles (tokens : List Token) : Outcome → Prop
  | accept {us rest : List Token} {e : Expr} : tokens = us ++ rest → Derives .expression us e →
      (∀ t ∈ rest.head?, t.isEnd = true) → Settles tokens (.accept e us.length)
  | fail {us rest : List Token} {q : Progress} {failure : Failure} : tokens = us ++ rest →
      run start us = some q → Stuck q rest.head? failure → Settles tokens (.fail failure us.length)

namespace Settles

/-- The tokens that are taken run to a point from which nothing goes on. -/
theorem exists_run (h : Settles tokens o) :
    ∃ us rest q, tokens = us ++ rest ∧ us.length = o.taken ∧ run start us = some q ∧
      ∀ t ∈ rest.head?, q.step t = none := by
  cases h with
  | accept htokens hd hend =>
    exact ⟨_, _, settle [], htokens, rfl, run_of_derives hd [],
      fun t ht => step_eq_none_of_isEnd (hend t ht)⟩
  | fail htokens hrun hstuck => exact ⟨_, _, _, htokens, rfl, hrun, hstuck.step_eq_none⟩

theorem unique (h : Settles tokens o) (h' : Settles tokens o') : o = o' := by
  cases h with
  | @accept us rest e htokens hd hend =>
    have hrun := run_of_derives hd []
    have hnone : ∀ t ∈ rest.head?, (settle []).step t = none :=
      fun t ht => step_eq_none_of_isEnd (hend t ht)
    cases h' with
    | accept htokens' hd' hend' =>
      obtain ⟨rfl, -, -⟩ := run_stuck_unique (htokens.symm.trans htokens') hrun hnone
        (run_of_derives hd' []) (fun t ht => step_eq_none_of_isEnd (hend' t ht))
      rw [hd.unique hd']
    | fail htokens' hrun' hstuck' =>
      obtain ⟨-, rfl, hq⟩ := run_stuck_unique (htokens.symm.trans htokens') hrun hnone hrun'
        hstuck'.step_eq_none
      exact absurd hq.symm (hstuck'.ne_settle_nil hend)
  | fail htokens hrun hstuck =>
    cases h' with
    | accept htokens' hd' hend' =>
      obtain ⟨-, rfl, hq⟩ := run_stuck_unique (htokens.symm.trans htokens') hrun hstuck.step_eq_none
        (run_of_derives hd' []) (fun t ht => step_eq_none_of_isEnd (hend' t ht))
      exact absurd hq (hstuck.ne_settle_nil hend')
    | fail htokens' hrun' hstuck' =>
      obtain ⟨rfl, rfl, rfl⟩ := run_stuck_unique (htokens.symm.trans htokens') hrun hstuck.step_eq_none
        hrun' hstuck'.step_eq_none
      rw [hstuck.unique hstuck']

end Settles

/-! ## With and without a limit -/

/-- The point behind the tokens is the first one above the limit. -/
structure Exceeds (limit : Nat) (us : List Token) (q : Progress) : Prop where
  run : run start us = some q
  under : start.Under limit us
  lt : limit < q.weight

/-- Reading with a budget either settles, and then no point on the way is above the budget, or fails
at the first point that is. -/
theorem readAll_cases (budget : Nat) (tokens : List Token) :
    (Settles tokens (readAll budget tokens) ∧ nesting tokens ≤ budget) ∨
      ∃ us rest q, tokens = us ++ rest ∧ Exceeds budget us q ∧
        readAll budget tokens = .fail .nestingTooDeep us.length := by
  rcases (readAll budget tokens).accept_or_fail with ⟨e, n, ho⟩ | ⟨failure, n, ho⟩
  · obtain ⟨us, rest, rfl, rfl, hd, hb, hend⟩ := readAll_eq_accept_iff.1 ho
    refine .inl ⟨ho ▸ .accept rfl hd hend, ?_⟩
    have hnone : ∀ t ∈ rest.head?, (settle []).step t = none :=
      fun t ht => step_eq_none_of_isEnd (hend t ht)
    have hs : Settled [] := rfl
    have hpeak : start.peak us = e.nesting :=
      (peak_of_derives hd (.inr (.inr hs))).trans (Nat.zero_add _)
    have hrun : run start us = some (settle []) := run_of_derives hd []
    rw [nesting, peak_append_of_stuck hrun hnone, hpeak]
    exact hb
  · obtain ⟨us, rest, q, rfl, rfl, hq, hunder, hblocked⟩ := readAll_blocked ho
    cases hblocked with
    | tooDeep hlt => exact .inr ⟨us, rest, q, rfl, ⟨hq, hunder, hlt⟩, ho⟩
    | stuck hle hstuck =>
      refine .inl ⟨ho ▸ .fail rfl hq hstuck, ?_⟩
      rw [nesting, peak_append_of_stuck hq hstuck.step_eq_none]
      exact (peak_le_iff_of_run hq).2 ⟨hunder, hle⟩

theorem Exceeds.lt_nesting (h : Exceeds limit us q) : limit < nesting (us ++ rest) :=
  Nat.lt_of_lt_of_le h.lt (weight_le_peak_of_run h.run)

/-- Without a limit reading settles, since no point has more weight than the tokens before it give. -/
theorem settles_readUnlimited (tokens : List Token) : Settles tokens (readUnlimited tokens) := by
  rw [readUnlimited_eq_readAll (Nat.le_refl _)]
  rcases readAll_cases (7 * tokens.length) tokens with ⟨h, -⟩ | ⟨us, rest, q, rfl, hexceeds, -⟩
  · exact h
  · have hweight := weight_le_of_run hexceeds.run
    have hlt := hexceeds.lt
    rw [List.length_append] at hlt
    simp only [start, weight, List.foldr_nil] at hweight hlt
    omega

theorem readAll_eq_readUnlimited (h : nesting tokens ≤ budget) :
    readAll budget tokens = readUnlimited tokens := by
  rcases readAll_cases budget tokens with ⟨hsettles, -⟩ | ⟨us, rest, q, rfl, hexceeds, -⟩
  · exact hsettles.unique (settles_readUnlimited tokens)
  · exact absurd h (Nat.not_le.2 hexceeds.lt_nesting)

/-- A sentence before an end token is read, if its nesting is in the budget. -/
theorem readAll_of_derives {e : Expr} (h : Derives .expression us e)
    (hend : ∀ t ∈ rest.head?, t.isEnd = true) (hn : nesting (us ++ rest) ≤ budget) :
    readAll budget (us ++ rest) = .accept e us.length := by
  rw [readAll_eq_readUnlimited hn]
  exact (settles_readUnlimited _).unique (.accept rfl h hend)

theorem readAll_tooDeep (h : budget < nesting tokens) :
    ∃ us rest q, tokens = us ++ rest ∧ Exceeds budget us q ∧
      readAll budget tokens = .fail .nestingTooDeep us.length := by
  rcases readAll_cases budget tokens with ⟨-, hle⟩ | hexceeds
  · exact absurd hle (Nat.not_le.2 h)
  · exact hexceeds

/-! ## The points of a reading -/

/-- The weight of the point behind the first `k` tokens, if nothing has stopped the reading there. -/
def weightAt (tokens : List Token) (k : Nat) : Option Nat :=
  (run start (tokens.take k)).map weight

/-- A run can be cut off anywhere, and nothing goes on from where it is stuck. -/
theorem Progress.isSome_run_take_iff {k : Nat} (h : run p us = some q)
    (hstuck : ∀ t ∈ rest.head?, q.step t = none) (hk : k ≤ (us ++ rest).length) :
    (run p ((us ++ rest).take k)).isSome ↔ k ≤ us.length := by
  induction us generalizing p k with
  | nil =>
    cases h
    cases k with
    | zero => simp
    | succ k =>
      cases rest with
      | nil => cases hk
      | cons t rest => simp [hstuck t rfl]
  | cons u us ih =>
    obtain ⟨r, hr, h⟩ := Option.bind_eq_some_iff.mp h
    cases k with
    | zero => simp
    | succ k =>
      rw [List.cons_append, List.take_succ_cons, run_cons, hr, Option.bind_some,
        ih h (Nat.le_of_succ_le_succ hk), List.length_cons, Nat.add_le_add_iff_right]

/-- The points of a reading are those up to the place at which it comes to its end. -/
theorem Settles.isSome_weightAt_iff {k : Nat} (h : Settles tokens o) (hk : k ≤ tokens.length) :
    (weightAt tokens k).isSome ↔ k ≤ o.taken := by
  obtain ⟨us, rest, q, rfl, hlength, hrun, hstuck⟩ := h.exists_run
  rw [weightAt, Option.isSome_map, ← hlength, isSome_run_take_iff hrun hstuck hk]

/-- The nesting is the greatest weight of the points of a reading. -/
theorem Settles.nesting_le_iff (h : Settles tokens o) :
    nesting tokens ≤ limit ↔ ∀ k ≤ o.taken, ∀ w ∈ weightAt tokens k, w ≤ limit := by
  rw [nesting, peak_le_iff]
  constructor
  · intro hpoints k _ w hw
    obtain ⟨q, hq, rfl⟩ := Option.map_eq_some_iff.1 hw
    exact hpoints k q hq
  · intro hpoints k q hq
    -- Past the end of the list nothing more is taken.
    have htake : tokens.take (min k tokens.length) = tokens.take k := by
      rw [List.take_eq_take_iff]
      omega
    have hweight : weightAt tokens (min k tokens.length) = some q.weight := by
      rw [weightAt, htake, hq]
      rfl
    have hle := (h.isSome_weightAt_iff (Nat.min_le_right ..)).1 (by rw [hweight]; rfl)
    exact hpoints _ hle _ hweight

end Grammar

end LoxSyntax
