import LoxSyntax.Proofs.Grammar.Locality
import LoxSyntax.Proofs.Parse.History

/-! # What a parse depends on

A rule or a whole parse, called after any history, depends on the tokens that it takes and on the one
behind them (`Parse.perform_local`). Where another parse has the same tokens ahead, it comes to the
same answer, as many tokens later and with the same diagnostics; so it does not matter what is before
the cursor, what is further ahead, or what is behind the first end token. And what decides is the kinds
of the tokens (`Parse.run_natural`): two lists of the same kinds come to trees of one shape, each made
from its own tokens, or to failures at the same place. -/

namespace LoxSyntax.Parse

open Grammar (Reader)

variable {p q : Parse} {reader : Reader} {operation : Operation} {budget k n : Nat} {e : Expr}
  {failure : Grammar.Failure}

/-! ## Operations that read -/

namespace Operation

/-- The reader of an operation that reads an expression. -/
def reader? (budget : Nat) : Operation → Option Reader
  | .apply rule => some (rule.apply budget)
  | .run => some (Grammar.readAll budget)
  | _ => none

/-- What a reading operation comes to with an expression. -/
def accepted : Operation → Expr → Except Fault Answer
  | .run, e => .ok (.result ⟨some e, []⟩)
  | _, e => .ok (.expr e)

/-- What a reading operation comes to without an expression. -/
def rejected : Operation → Grammar.Failure → Diagnostic → Except Fault Answer
  | .run, _, d => .ok (.result ⟨none, [d]⟩)
  | _, failure, _ => .error (.ofFailure failure)

/-- What a reading operation that fails at a token reports. -/
def reports : Operation → Grammar.Failure → Token → List Diagnostic
  | .run, failure, t => [blame t failure.message]
  | _, failure, t => complaints t failure

theorem natural_of_reader? (h : operation.reader? budget = some reader) : reader.Natural := by
  cases operation with
  | apply rule => exact Option.some.inj h ▸ rule.natural_apply budget
  | run => exact Option.some.inj h ▸ Grammar.natural_readAll budget
  | _ => cases h

theorem bounded_of_reader? (h : operation.reader? budget = some reader) : reader.Bounded := by
  cases operation with
  | apply rule => exact Option.some.inj h ▸ rule.bounded_apply budget
  | run => exact Option.some.inj h ▸ Grammar.bounded_readAll budget
  | _ => cases h

end Operation

theorem perform_of_accept (h : operation.reader? budget = some reader)
    (hrun : operation = .run → p.finished = false) (ho : reader p.ahead = .accept e n) :
    (perform operation p budget).1 = operation.accepted e ∧
      Advances p n [] (perform operation p budget).2 := by
  have hadvances := Advances.of_accept (Operation.bounded_of_reader? h) ho
  cases operation with
  | apply rule =>
    cases h
    rw [perform, apply, read_of_accept ho]
    exact ⟨rfl, hadvances⟩
  | run =>
    cases h
    rw [perform, run_of_accept (hrun rfl) ho]
    exact ⟨rfl, hadvances.tokens_eq, hadvances.current_eq, hadvances.current_le,
      hadvances.diagnostics_eq⟩
  | _ => cases h

theorem perform_of_fail (h : operation.reader? budget = some reader)
    (hrun : operation = .run → p.finished = false) (ho : reader p.ahead = .fail failure n)
    {t : Token} (ht : { p with current := p.current + n }.peek = t) :
    (perform operation p budget).1 = operation.rejected failure (blame t failure.message) ∧
      Advances p n (operation.reports failure t) (perform operation p budget).2 := by
  have hadvances := Advances.of_fail (Operation.bounded_of_reader? h) ho (operation.reports failure t)
  cases operation with
  | apply rule =>
    cases h
    rw [perform, apply, read_of_fail ho, ht]
    exact ⟨rfl, hadvances⟩
  | run =>
    cases h
    rw [perform, run_of_fail (hrun rfl) ho, ht]
    exact ⟨rfl, hadvances.tokens_eq, hadvances.current_eq, hadvances.current_le,
      hadvances.diagnostics_eq⟩
  | _ => cases h

/-- A reading operation goes as far as its reader. -/
theorem current_perform (h : operation.reader? budget = some reader)
    (hrun : operation = .run → p.finished = false) :
    (perform operation p budget).2.current = p.current + (reader p.ahead).taken := by
  rcases (reader p.ahead).accept_or_fail with ⟨e, n, ho⟩ | ⟨failure, n, ho⟩
  · rw [(perform_of_accept h hrun ho).2.current_eq, ho]
    rfl
  · rw [(perform_of_fail h hrun ho rfl).2.current_eq, ho]
    rfl

/-! ## The same tokens ahead -/

/-- The operation comes to the same answer in both states, takes as many tokens, and reports the same
diagnostics. -/
structure SameEffect (operation : Operation) (budget : Nat) (p q : Parse) (taken : Nat) : Prop where
  answer_eq : (perform operation q budget).1 = (perform operation p budget).1
  exists_reported : ∃ reported, Advances p taken reported (perform operation p budget).2 ∧
    Advances q taken reported (perform operation q budget).2

theorem sameEffect_of_take_eq (h : operation.reader? budget = some reader)
    (hp : p.current ≤ p.tokens.findIdx Token.isEnd)
    (hrun : operation = .run → p.finished = false ∧ q.finished = false)
    (hk : (reader p.ahead).taken = k)
    (htake : q.ahead.take (k + 1) = p.ahead.take (k + 1)) :
    SameEffect operation budget p q k := by
  have hsame : reader q.ahead = reader p.ahead :=
    (Operation.natural_of_reader? h).eq_of_take_eq (hk ▸ htake)
  have hle := current_add_taken_le (Operation.bounded_of_reader? h) hp
  rw [hk] at hle
  have hget : p.tokens[p.current + k]? = some { p with current := p.current + k }.peek :=
    getElem?_current (p := { p with current := p.current + k }) hle
  have hget' : q.tokens[q.current + k]? = p.tokens[p.current + k]? := by
    have hnext := congrArg (·[k]?) htake
    simpa [ahead] using hnext
  rcases (reader p.ahead).accept_or_fail with ⟨e, n, ho⟩ | ⟨failure, n, ho⟩
  · obtain rfl : n = k := by rw [← hk, ho]; rfl
    obtain ⟨hanswer, hadvances⟩ := perform_of_accept h (fun h => (hrun h).1) ho
    obtain ⟨hanswer', hadvances'⟩ := perform_of_accept h (fun h => (hrun h).2) (hsame.trans ho)
    exact ⟨hanswer'.trans hanswer.symm, [], hadvances, hadvances'⟩
  · obtain rfl : n = k := by rw [← hk, ho]; rfl
    have hpeek : { q with current := q.current + n }.peek = _ :=
      peek_eq_of_getElem? (hget'.trans hget)
    obtain ⟨hanswer, hadvances⟩ := perform_of_fail h (fun h => (hrun h).1) ho rfl
    obtain ⟨hanswer', hadvances'⟩ := perform_of_fail h (fun h => (hrun h).2) (hsame.trans ho) hpeek
    exact ⟨hanswer'.trans hanswer.symm, _, hadvances, hadvances'⟩

/-! ## After any histories -/

/-- The tokens up to the first end token. -/
def upToEnd (tokens : List Token) : List Token := tokens.take (tokens.findIdx Token.isEnd + 1)

theorem eq_of_ofTokens {tokens : List Token} {reporter : Reporter}
    (h : ofTokens tokens reporter = .ok p) :
    p.tokens = tokens ∧ p.current = 0 ∧ p.reporter = reporter ∧ p.finished = false := by
  simp only [ofTokens] at h
  split at h
  · cases h
    exact ⟨rfl, rfl, rfl, rfl⟩
  · cases h

/-- What any history leaves of a parse that has begun with the tokens. -/
theorem performAll_ofTokens {tokens : List Token} {reporter : Reporter} {first : Parse}
    (h : ofTokens tokens reporter = .ok first) (budget : Nat) (history : List Operation) :
    (performAll budget history first).tokens = tokens ∧
      (performAll budget history first).current ≤ tokens.findIdx Token.isEnd ∧
      ((performAll budget history first).finished = false ↔ .run ∉ history) := by
  obtain ⟨rfl, hzero, -, hfinished⟩ := eq_of_ofTokens h
  have hcontinues := continues_performAll budget history first
  refine ⟨hcontinues.tokens_eq, hcontinues.bounded (hzero ▸ Nat.zero_le _), ?_⟩
  rw [← Bool.not_eq_true, finished_performAll_iff, hfinished]
  simp

theorem closed_upToEnd (p : Parse) : (upToEnd p.tokens).getLast?.any Token.isEnd := by
  have hlt : p.tokens.findIdx Token.isEnd < p.tokens.length :=
    findIdx_isEnd_lt p.closed
  have hend : p.tokens[p.tokens.findIdx Token.isEnd].isEnd = true := List.findIdx_getElem
  simp [upToEnd, List.getLast?_take, List.getElem?_eq_getElem hlt, hend]

/-- A parse about to begin goes as one under way that has the same tokens ahead. -/
theorem exists_fresh {tokens : List Token} (closed : tokens.getLast?.any Token.isEnd)
    (h : operation.reader? budget = some reader) (hp : p.current ≤ p.tokens.findIdx Token.isEnd)
    (hrun : operation = .run → p.finished = false) (hk : (reader p.ahead).taken = k)
    (htake : tokens.take (k + 1) = p.ahead.take (k + 1)) (reporter : Reporter) :
    ∃ fresh, ofTokens tokens reporter = .ok fresh ∧ SameEffect operation budget p fresh k :=
  ⟨⟨tokens, closed, 0, reporter, false⟩, dif_pos closed,
    sameEffect_of_take_eq h hp (fun heq => ⟨hrun heq, rfl⟩) hk htake⟩

/-- Let a rule or a first whole parse, called after any history, take `k` tokens. Any other parse,
after any history, that has the same `k` tokens and the same next one ahead comes to the same answer,
takes as many tokens and reports the same diagnostics. So does a parse that begins with the tokens
from the cursor on, and one whose tokens end with the first end token, which is not taken. -/
theorem perform_local {ts us : List Token} {reporter reporter' : Reporter} {first second p q : Parse}
    {history history' : List Operation} (hfirst : ofTokens ts reporter = .ok first)
    (hsecond : ofTokens us reporter' = .ok second) (hp : performAll budget history first = p)
    (hq : performAll budget history' second = q)
    (hreads : operation = .run ∨ ∃ rule, operation = .apply rule)
    (hrun : operation = .run → .run ∉ history ∧ .run ∉ history')
    (hk : (perform operation p budget).2.current = p.current + k)
    (hahead : (us.drop q.current).take (k + 1) = (ts.drop p.current).take (k + 1)) :
    SameEffect operation budget p q k ∧ p.current + k ≤ ts.findIdx Token.isEnd ∧
      ∀ reporter, (∃ fresh, ofTokens (ts.drop p.current) reporter = .ok fresh ∧
          SameEffect operation budget p fresh k) ∧
        ∃ fresh, ofTokens ((upToEnd ts).drop p.current) reporter = .ok fresh ∧
          SameEffect operation budget p fresh k := by
  obtain ⟨reader, hreader⟩ : ∃ reader, operation.reader? budget = some reader := by
    rcases hreads with rfl | ⟨rule, rfl⟩
    · exact ⟨_, rfl⟩
    · exact ⟨_, rfl⟩
  have hstate := performAll_ofTokens hfirst budget history
  have hstate' := performAll_ofTokens hsecond budget history'
  rw [hp] at hstate
  rw [hq] at hstate'
  obtain ⟨rfl, hbound, hfinished⟩ := hstate
  obtain ⟨rfl, -, hfinished'⟩ := hstate'
  have hfresh : operation = .run → p.finished = false ∧ q.finished = false :=
    fun heq => ⟨hfinished.2 (hrun heq).1, hfinished'.2 (hrun heq).2⟩
  have htaken : (reader p.ahead).taken = k := by
    have hcurrent := current_perform hreader fun heq => (hfresh heq).1
    omega
  have hle := current_add_taken_le (Operation.bounded_of_reader? hreader) hbound
  rw [htaken] at hle
  have hlt : p.current < p.tokens.length := by
    have := findIdx_isEnd_lt p.closed
    omega
  refine ⟨sameEffect_of_take_eq hreader hbound hfresh htaken hahead, hle, fun reporter => ⟨?_, ?_⟩⟩
  · exact exists_fresh (closed_drop p.closed hlt) hreader hbound (fun heq => (hfresh heq).1) htaken
      rfl reporter
  · have hlength : p.current < (upToEnd p.tokens).length := by
      rw [upToEnd, List.length_take]
      omega
    have htake : ((upToEnd p.tokens).drop p.current).take (k + 1) = p.ahead.take (k + 1) := by
      rw [upToEnd, List.drop_take, List.take_take, ahead, Nat.min_eq_left (by omega)]
    exact exists_fresh (closed_drop (closed_upToEnd p) hlength) hreader hbound
      (fun heq => (hfresh heq).1) htaken htake reporter

/-- The parse of `a + ( b c`. -/
def groupInSum : Parse where
  tokens := [⟨.identifier, "a", .nil, 1⟩, ⟨.plus, "+", .nil, 1⟩, ⟨.leftParen, "(", .nil, 1⟩,
    ⟨.identifier, "b", .nil, 2⟩, ⟨.identifier, "c", .nil, 2⟩, ⟨.eof, "", .nil, 2⟩]
  closed := by decide
  current := 0
  reporter := {}
  finished := false

/-- The parse of `! ( b c )`, with the same tokens from the opening parenthesis to `c`. -/
def groupAfterBang : Parse where
  tokens := [⟨.bang, "!", .nil, 1⟩, ⟨.leftParen, "(", .nil, 1⟩, ⟨.identifier, "b", .nil, 2⟩,
    ⟨.identifier, "c", .nil, 2⟩, ⟨.rightParen, ")", .nil, 2⟩, ⟨.eof, "", .nil, 2⟩]
  closed := by decide
  current := 0
  reporter := {}
  finished := false

/-- Both parses miss the closing parenthesis at `c`, the second one after a failure. -/
theorem perform_local_unclosed :
    let p := performAll Grammar.defaultBudget [.advance, .advance] groupInSum
    let q := performAll Grammar.defaultBudget
      [.consume .rightParen "Expect ')' after expression.", .matchAny [.bang, .minus]] groupAfterBang
    p.current = 2 ∧ q.current = 1 ∧
      (perform .run p Grammar.defaultBudget).2.current = p.current + 2 ∧
      (q.tokens.drop q.current).take 3 = (p.tokens.drop p.current).take 3 ∧
      SameEffect .run Grammar.defaultBudget p q 2 := by
  intro p q
  have hk : (perform .run p Grammar.defaultBudget).2.current = p.current + 2 := by decide +kernel
  have hahead : (q.tokens.drop q.current).take 3 = (p.tokens.drop p.current).take 3 := by
    decide +kernel
  have hp : ofTokens groupInSum.tokens {} = .ok groupInSum := dif_pos groupInSum.closed
  have hq : ofTokens groupAfterBang.tokens {} = .ok groupAfterBang := dif_pos groupAfterBang.closed
  have hlocal := perform_local hp hq rfl rfl (.inl rfl) (by simp) hk hahead
  exact ⟨by decide +kernel, by decide +kernel, hk, hahead, hlocal.1⟩

/-! ## Tokens of the same kinds -/

theorem closed_congr {ts us : List Token} (h : us.map Token.kind = ts.map Token.kind) :
    us.getLast?.any Token.isEnd = ts.getLast?.any Token.isEnd := by
  have hany (tokens : List Token) :
      tokens.getLast?.any Token.isEnd = (tokens.map Token.kind).getLast?.any (· = .eof) := by
    rw [List.getLast?_map, Option.any_map]
    rfl
  rw [hany, hany, h]

/-- Where a failing whole parse stops there is a token to blame. -/
theorem exists_run_of_fail (hcurrent : p.current = 0) (hf : p.finished = false)
    (ho : Grammar.readAll budget p.tokens = .fail failure n) :
    ∃ t, p.tokens[n]? = some t ∧ p.run budget = (.ok ⟨none, [blame t failure.message]⟩,
      { p with
        current := n
        reporter := p.reporter.report (blame t failure.message)
        finished := true }) := by
  have hahead : p.ahead = p.tokens := by rw [ahead, hcurrent, List.drop_zero]
  have hbound := Grammar.bounded_readAll budget p.tokens
  rw [ho] at hbound
  refine ⟨{ p with current := n }.peek, getElem?_current (p := { p with current := n }) hbound, ?_⟩
  rw [run_of_fail hf (hahead ▸ ho), hcurrent, Nat.zero_add]

/-- The parses of two token lists of the same kinds go alike. Either both come to a tree, of which the
second is the first one with the tokens of the second list in the places of those of the first, or both
stop at the same place for the same reason, and each reports its own token there. -/
theorem run_natural {ts us : List Token} (closed : ts.getLast?.any Token.isEnd)
    (hkinds : us.map Token.kind = ts.map Token.kind) (reporter reporter' : Reporter) (budget : Nat) :
    ∃ p q, ofTokens ts reporter = .ok p ∧ ofTokens us reporter' = .ok q ∧
      ((∃ e n, e.onTokens ts = e ∧
          p.run budget = (.ok ⟨some e, []⟩, { p with current := n, finished := true }) ∧
          q.run budget =
            (.ok ⟨some (e.onTokens us), []⟩, { q with current := n, finished := true })) ∨
        ∃ n t u message, ts[n]? = some t ∧ us[n]? = some u ∧
          p.run budget = (.ok ⟨none, [blame t message]⟩,
            { p with
              current := n
              reporter := reporter.report (blame t message)
              finished := true }) ∧
          q.run budget = (.ok ⟨none, [blame u message]⟩,
            { q with
              current := n
              reporter := reporter'.report (blame u message)
              finished := true })) := by
  have closed' : us.getLast?.any Token.isEnd := (closed_congr hkinds).trans closed
  let p : Parse := ⟨ts, closed, 0, reporter, false⟩
  let q : Parse := ⟨us, closed', 0, reporter', false⟩
  refine ⟨p, q, dif_pos closed, dif_pos closed', ?_⟩
  have hsame := Grammar.natural_readAll budget ts us (.of_map_eq hkinds _)
  rcases (Grammar.readAll budget ts).accept_or_fail with ⟨e, n, ho⟩ | ⟨failure, n, ho⟩
  · obtain ⟨vs, rest, hts, hlength, hd, -⟩ := Grammar.readAll_eq_accept_iff.1 ho
    have hself : e.onTokens ts = e := hts ▸ hd.onTokens_self rest
    have hvs : (us.take n).map Token.kind = vs.map Token.kind := by
      rw [List.map_take, hkinds, hts, ← List.map_take, ← hlength, List.take_left]
    have htake : e.onTokens us = e.onTokens (us.take n) := by
      rw [← hd.onTokens_append hvs (us.drop n), List.take_append_drop]
    have ho' : Grammar.readAll budget us = .accept (e.onTokens us) n := by
      rw [hsame, ho, htake]
      rfl
    refine .inl ⟨e, n, hself, ?_, ?_⟩
    · rw [run_of_accept (p := p) rfl ho, Nat.zero_add]
    · rw [run_of_accept (p := q) rfl ho', Nat.zero_add]
  · have ho' : Grammar.readAll budget us = .fail failure n := by
      rw [hsame, ho]
      rfl
    obtain ⟨t, ht, hp⟩ := exists_run_of_fail (p := p) rfl rfl ho
    obtain ⟨u, hu, hq⟩ := exists_run_of_fail (p := q) rfl rfl ho'
    exact .inr ⟨n, t, u, failure.message, ht, hu, hp, hq⟩

/-- The tokens of `- ( a ) + "s" * true`. -/
def original : List Token :=
  [⟨.minus, "-", .nil, 1⟩, ⟨.leftParen, "(", .nil, 1⟩, ⟨.identifier, "a", .nil, 1⟩,
    ⟨.rightParen, ")", .nil, 1⟩, ⟨.plus, "+", .nil, 1⟩, ⟨.string, "\"s\"", .text "s", 1⟩,
    ⟨.star, "*", .nil, 1⟩, ⟨.trueWord, "true", .nil, 1⟩, ⟨.eof, "", .nil, 1⟩]

/-- Tokens of the same kinds, with other lexemes, values and lines. -/
def respelled : List Token :=
  [⟨.minus, "minus", .nil, 1⟩, ⟨.leftParen, "[", .nil, 2⟩, ⟨.identifier, "b", .nil, 3⟩,
    ⟨.rightParen, "]", .nil, 4⟩, ⟨.plus, "plus", .nil, 5⟩, ⟨.string, "\"t\"", .text "t", 6⟩,
    ⟨.star, "times", .nil, 7⟩, ⟨.trueWord, "yes", .text "yes", 8⟩, ⟨.eof, "", .nil, 9⟩]

theorem run_natural_respelled :
    original.getLast?.any Token.isEnd = true ∧
      respelled.map Token.kind = original.map Token.kind ∧
      ∃ q, ofTokens respelled {} = .ok q ∧ (q.run Grammar.defaultBudget).1 = .ok ⟨some
        (.binary
          (.unary ⟨.minus, "minus", .nil, 1⟩ (.grouping (.reference ⟨.identifier, "b", .nil, 3⟩) 2))
          ⟨.plus, "plus", .nil, 5⟩
          (.binary (.literal (.text "t") 6) ⟨.star, "times", .nil, 7⟩
            (.literal (.bool true) 8))), []⟩ := by
  have closed : original.getLast?.any Token.isEnd = true := by decide
  have hkinds : respelled.map Token.kind = original.map Token.kind := by decide
  have hread : Grammar.readAll Grammar.defaultBudget original = .accept
      (.binary (.unary ⟨.minus, "-", .nil, 1⟩ (.grouping (.reference ⟨.identifier, "a", .nil, 1⟩) 1))
        ⟨.plus, "+", .nil, 1⟩
        (.binary (.literal (.text "s") 1) ⟨.star, "*", .nil, 1⟩ (.literal (.bool true) 1))) 8 := by
    cbv
  have hrun := run_of_accept (p := ⟨original, closed, 0, {}, false⟩) rfl hread
  obtain ⟨p, q, hp, hq, ⟨e, n, -, haccepted, haccepted'⟩ | ⟨n, t, u, message, -, -, hfailed, -⟩⟩ :=
    run_natural closed hkinds {} {} Grammar.defaultBudget
  · cases (dif_pos closed).symm.trans hp
    cases congrArg Prod.fst (hrun.symm.trans haccepted)
    refine ⟨closed, hkinds, q, hq, ?_⟩
    rw [haccepted']
    rfl
  · cases (dif_pos closed).symm.trans hp
    cases congrArg Prod.fst (hrun.symm.trans hfailed)

end LoxSyntax.Parse
