import LoxSyntax.Proofs.Parse.Reading

/-! # A parse token by token

The readers of a parse take token lists apart. `Walk.parse?` parses by looking at single places of
one list: at the token under the cursor and at the one before it. It gives `none` once it has looked
behind the last token or before the first. On a list that an end token closes it never does, and it
comes to what the readers come to (`Walk.parse?_eq`). -/

namespace LoxSyntax

/-- The result with the expression, or without one and with the diagnostic. -/
def ParseResult.ofOutcome : Except Diagnostic Expr → ParseResult
  | .ok e => ⟨some e, []⟩
  | .error d => ⟨none, [d]⟩

namespace Walk

open Grammar

/-- Reading from a place on; none after a look outside of the list. -/
abbrev PlaceReader := Nat → Option Outcome

section Looks

variable (tokens : List Token)

def peek? (i : Nat) : Option Token := tokens[i]?

/-- The token before the place; there is none before the first. -/
def previous? : Nat → Option Token
  | 0 => none
  | i + 1 => tokens[i]?

def isAtEnd? (i : Nat) : Option Bool := (peek? tokens i).map Token.isEnd

def check? (kind : Kind) (i : Nat) : Option Bool := do
  if ← isAtEnd? tokens i then return false
  return (← peek? tokens i).kind = kind

/-- The place after the next token, unless that is an end token, with the token before it. -/
def advance? (i : Nat) : Option (Token × Nat) := do
  let next := if ← isAtEnd? tokens i then i else i + 1
  return (← previous? tokens next, next)

/-- The place after the next token if that is of one of the kinds. -/
def matchAny? (kinds : List Kind) (i : Nat) : Option (Option Nat) :=
  match kinds with
  | [] => some none
  | kind :: kinds => do
    if ← check? tokens kind i then return some (← advance? tokens i).2
    matchAny? kinds i

/-- Goes on with the next token if it is of one of the kinds. -/
def whenMatch? (kinds : List Kind) (i : Nat) (found : Token → PlaceReader)
    (otherwise : PlaceReader) : Option Outcome := do
  match ← matchAny? tokens kinds i with
  | some next => found (← previous? tokens next) next
  | none => otherwise i

/-- Fails, with a look at the token to blame. -/
def fail? (failure : Failure) (i : Nat) : Option Outcome := do
  let _ ← peek? tokens i
  return .fail failure 0

/-- What follows an expression, read from the place where it ended, or the failure to read it. -/
def andThen? (o : Outcome) (next : Expr → PlaceReader) (i : Nat) : Option Outcome :=
  match o.result with
  | .ok e => (next e (i + o.taken)).map (Outcome.shift o.taken)
  | .error failure => some (.fail failure o.taken)

end Looks

variable {tokens : List Token} {kind : Kind} {kinds operators : List Kind} {i j : Nat} {t : Token}

/-! ## Looks inside of the list -/

theorem check?_of_getElem? (h : tokens[i]? = some t) :
    check? tokens kind i = some (!t.isEnd && t.kind = kind) := by
  cases hend : t.isEnd <;> simp [check?, isAtEnd?, peek?, h, hend]

theorem advance?_of_getElem? (h : tokens[i]? = some t) (hend : t.isEnd = false) :
    advance? tokens i = some (t, i + 1) := by
  simp [advance?, isAtEnd?, peek?, previous?, h, hend]

theorem matchAny?_of_getElem? (h : tokens[i]? = some t) :
    matchAny? tokens kinds i =
      some (if t.isEnd = false ∧ t.kind ∈ kinds then some (i + 1) else none) := by
  induction kinds with
  | nil => simp [matchAny?]
  | cons kind kinds ih =>
    rw [matchAny?, check?_of_getElem? h, ih]
    cases hend : t.isEnd with
    | true => simp
    | false =>
      by_cases hkind : t.kind = kind
      · simp [hkind, advance?_of_getElem? h hend]
      · simp [hkind]

theorem lt_length_of_matchAny? (h : matchAny? tokens kinds i = some (some j)) :
    i < tokens.length ∧ j = i + 1 := by
  cases hget : tokens[i]? with
  | none =>
    cases kinds with
    | nil => simp [matchAny?] at h
    | cons kind kinds => simp [matchAny?, check?, isAtEnd?, peek?, hget] at h
  | some t =>
    rw [matchAny?_of_getElem? hget] at h
    split at h
    · cases h
      exact ⟨(List.getElem?_eq_some_iff.1 hget).1, rfl⟩
    · cases h

theorem whenMatch?_of_getElem? {found : Token → PlaceReader} {otherwise : PlaceReader}
    (h : tokens[i]? = some t) (hkinds : .eof ∉ kinds) :
    whenMatch? tokens kinds i found otherwise =
      if t.kind ∈ kinds then found t (i + 1) else otherwise i := by
  have hiff : t.isEnd = false ∧ t.kind ∈ kinds ↔ t.kind ∈ kinds := by
    refine and_iff_right_of_imp fun hmem => Token.isEnd_eq_false ?_
    rintro hkind
    exact hkinds (hkind ▸ hmem)
  simp only [whenMatch?, matchAny?_of_getElem? h, hiff]
  split
  · simp [previous?, h]
  · rfl

theorem fail?_of_getElem? {failure : Failure} (h : tokens[i]? = some t) :
    fail? tokens failure i = some (.fail failure 0) := by
  simp [fail?, peek?, h]

/-! ## The rules -/

section Rules

variable (tokens : List Token)

def chainRest? (operators : List Kind) (operand : PlaceReader) (left : Expr) (i : Nat) :
    Option Outcome :=
  match hm : matchAny? tokens operators i with
  | none => none
  | some none => some (.accept left 0)
  | some (some j) => do
    have := lt_length_of_matchAny? hm
    let operator ← previous? tokens j
    match ← operand j with
    | ⟨.ok right, taken⟩ =>
      (chainRest? operators operand (.binary left operator right) (j + taken)).map
        (Outcome.shift (taken + 1))
    | ⟨.error failure, taken⟩ => return .fail failure (taken + 1)
termination_by tokens.length - i

def chain? (operators : List Kind) (operand : PlaceReader) (i : Nat) : Option Outcome := do
  andThen? (← operand i) (chainRest? tokens operators operand) i

def equality? (operand : PlaceReader) : PlaceReader :=
  chain? tokens (Rule.operators .equality) <| chain? tokens (Rule.operators .comparison) <|
    chain? tokens (Rule.operators .term) <| chain? tokens (Rule.operators .factor) operand

def close? (line : Int) (inner : Expr) (i : Nat) : Option Outcome :=
  whenMatch? tokens [.rightParen] i (fun _ _ => some (.accept (.grouping inner line) 1))
    (fail? tokens .parenthesisUnclosed)

/-- What stands between parentheses, if the nesting allows any, and the closing parenthesis. -/
def group? (inner : Option PlaceReader) (line : Int) (i : Nat) : Option Outcome :=
  match inner with
  | some read => do (andThen? (← read i) (close? tokens line) i).map (Outcome.shift 1)
  | none => some (.fail .nestingTooDeep 1)

def primary? (inner : Option PlaceReader) (i : Nat) : Option Outcome :=
  whenMatch? tokens [.falseWord] i
    (fun t _ => some (.accept (.literal (.bool false) t.line) 1)) fun i =>
  whenMatch? tokens [.trueWord] i
    (fun t _ => some (.accept (.literal (.bool true) t.line) 1)) fun i =>
  whenMatch? tokens [.nilWord] i
    (fun t _ => some (.accept (.literal .nil t.line) 1)) fun i =>
  whenMatch? tokens [.number, .string] i
    (fun t _ => some (.accept (.literal t.literal t.line) 1)) fun i =>
  whenMatch? tokens [.identifier] i
    (fun t _ => some (.accept (.reference t) 1)) fun i =>
  whenMatch? tokens [.leftParen] i
    (fun t => group? tokens inner t.line)
    (fail? tokens .operandMissing)

def unary? (budget : Nat) (i : Nat) : Option Outcome :=
  whenMatch? tokens Rule.unaryOperators i
    (fun operator j =>
      match budget with
      | 0 => some (.fail .nestingTooDeep 1)
      | budget + 1 => (unary? budget j).map (applyUnary operator))
    fun i =>
      match budget with
      | budget + 7 => primary? tokens (some (equality? tokens (unary? budget))) i
      | _ => primary? tokens none i
termination_by budget

def finish? (e : Expr) (i : Nat) : Option Outcome := do
  if ← isAtEnd? tokens i then return .accept e 0
  fail? tokens .endMissing i

/-- An expression of a rule from a place on. -/
def rule? (rule : Rule) (budget : Nat) : PlaceReader :=
  let factor? := chain? tokens (Rule.operators .factor) (unary? tokens budget)
  let term? := chain? tokens (Rule.operators .term) factor?
  match rule with
  | .expression | .equality => equality? tokens (unary? tokens budget)
  | .comparison => chain? tokens (Rule.operators .comparison) term?
  | .term => term?
  | .factor => factor?
  | .unary => unary? tokens budget
  | .primary =>
    match budget with
    | budget + 7 => primary? tokens (some (equality? tokens (unary? tokens budget)))
    | _ => primary? tokens none

/-- All tokens from a place to the next end token. -/
def readAll? (budget : Nat) (i : Nat) : Option Outcome := do
  andThen? (← equality? tokens (unary? tokens budget) i) (finish? tokens) i

/-- The expression that the tokens are, or the diagnostic at the token to blame. -/
def parse? (budget : Nat) : Option (Except Diagnostic Expr) := do
  let o ← andThen? (← equality? tokens (unary? tokens budget) 0) (finish? tokens) 0
  match o.result with
  | .ok e => return .ok e
  | .error failure => return .error (Parse.blame (← peek? tokens o.taken) failure.message)

end Rules

/-! ## Equality with the readers -/

/-- There is an end token at the place or after it. -/
def EndAhead (tokens : List Token) (i : Nat) : Prop := ∃ t ∈ tokens.drop i, t.isEnd = true

theorem EndAhead.exists_getElem? (h : EndAhead tokens i) :
    ∃ t, tokens[i]? = some t ∧ tokens.drop i = t :: tokens.drop (i + 1) ∧
      (t.isEnd = false → EndAhead tokens (i + 1)) := by
  obtain ⟨u, hu, hend⟩ := h
  have hlt : i < tokens.length := by
    have := List.length_pos_of_mem hu
    simp only [List.length_drop] at this
    omega
  have hdrop : tokens.drop i = tokens[i] :: tokens.drop (i + 1) := List.drop_eq_getElem_cons hlt
  refine ⟨tokens[i], List.getElem?_eq_getElem hlt, hdrop, fun hnot => ?_⟩
  rw [hdrop] at hu
  rcases List.mem_cons.1 hu with rfl | hu
  · simp [hend] at hnot
  · exact ⟨u, hu, hend⟩

/-- From a place with an end token ahead, the walk comes to what the reader comes to, and not past
the end token. -/
def Agrees (tokens : List Token) (walk : PlaceReader) (reader : Reader) : Prop :=
  ∀ i, EndAhead tokens i →
    walk i = some (reader (tokens.drop i)) ∧ EndAhead tokens (i + (reader (tokens.drop i)).taken)

variable {walk : PlaceReader} {reader : Reader} {rule : Rule} {budget : Nat}

theorem Agrees.andThen {next? : Expr → PlaceReader} {next : Expr → Reader} {o : Outcome}
    (hnext : ∀ e, Agrees tokens (next? e) (next e)) (h : EndAhead tokens (i + o.taken)) :
    andThen? o next? i = some (o.andThen next (tokens.drop i)) ∧
      EndAhead tokens (i + (o.andThen next (tokens.drop i)).taken) := by
  obtain ⟨failure | e, taken⟩ := o
  · exact ⟨rfl, h⟩
  · obtain ⟨heq, hend⟩ := hnext e (i + taken) h
    simp only [andThen?, Outcome.andThen, List.drop_drop, heq]
    exact ⟨rfl, by simpa [Outcome.shift, Nat.add_assoc] using hend⟩

theorem chainRest?_of_mem {operand : PlaceReader} {left : Expr} (h : tokens[i]? = some t)
    (hend : t.isEnd = false) (hop : t.kind ∈ operators) :
    chainRest? tokens operators operand left i = (operand (i + 1)).bind fun o =>
      match o with
      | ⟨.ok right, taken⟩ =>
        (chainRest? tokens operators operand (.binary left t right) (i + 1 + taken)).map
          (Outcome.shift (taken + 1))
      | ⟨.error failure, taken⟩ => some (.fail failure (taken + 1)) := by
  have hmatch : matchAny? tokens operators i = some (some (i + 1)) := by
    rw [matchAny?_of_getElem? h, if_pos ⟨hend, hop⟩]
  rw [chainRest?]
  split
  · rename_i heq
    cases hmatch.symm.trans heq
  · rename_i heq
    cases hmatch.symm.trans heq
  · rename_i heq
    cases hmatch.symm.trans heq
    simp only [previous?, h]
    rfl

theorem chainRest?_of_not_mem {operand : PlaceReader} {left : Expr} (h : tokens[i]? = some t)
    (hop : t.kind ∉ operators) :
    chainRest? tokens operators operand left i = some (.accept left 0) := by
  have hmatch : matchAny? tokens operators i = some none := by
    rw [matchAny?_of_getElem? h, if_neg fun hmem => hop hmem.2]
  rw [chainRest?]
  split
  · rename_i heq
    cases hmatch.symm.trans heq
  · rfl
  · rename_i heq
    cases hmatch.symm.trans heq

theorem Agrees.chainRest (H : Agrees tokens walk reader) (hkinds : .eof ∉ operators) (left : Expr) :
    Agrees tokens (chainRest? tokens operators walk left) (chainRest operators reader left) := by
  intro i h
  -- Each operand begins behind its operator, so fewer tokens are left for the rest of the chain.
  generalize hleft : tokens.length - i = n
  induction n using Nat.strongRecOn generalizing left i with
  | ind n ih =>
    obtain ⟨t, hget, hdrop, hnext⟩ := h.exists_getElem?
    rw [hdrop, Grammar.chainRest]
    by_cases hop : t.kind ∈ operators
    · have hend : t.isEnd = false := Token.isEnd_eq_false fun hk => hkinds (hk ▸ hop)
      obtain ⟨hwalk, hahead⟩ := H (i + 1) (hnext hend)
      rw [if_pos hop, chainRest?_of_mem hget hend hop, hwalk]
      generalize reader (tokens.drop (i + 1)) = o at hahead
      obtain ⟨failure | right, taken⟩ := o
      · exact ⟨rfl, by simpa [Outcome.fail, Nat.add_assoc, Nat.add_comm 1] using hahead⟩
      · have hlt : i < tokens.length := (List.getElem?_eq_some_iff.1 hget).1
        obtain ⟨hrest, hahead⟩ := ih (tokens.length - (i + 1 + taken)) (by omega)
          (.binary left t right) (i + 1 + taken) hahead rfl
        simp only [Option.bind_some, hrest, List.drop_drop]
        refine ⟨rfl, ?_⟩
        simpa [Outcome.shift, Nat.add_assoc, Nat.add_comm 1, Nat.add_left_comm 1] using hahead
    · rw [if_neg hop]
      exact ⟨chainRest?_of_not_mem hget hop, h⟩

theorem Agrees.chain (H : Agrees tokens walk reader) (hkinds : .eof ∉ operators) :
    Agrees tokens (chain? tokens operators walk) (chain operators reader) := by
  intro i h
  obtain ⟨hwalk, hahead⟩ := H i h
  simp only [chain?, hwalk]
  exact Agrees.andThen (H.chainRest hkinds) hahead

theorem Agrees.equality (H : Agrees tokens walk reader) :
    Agrees tokens (equality? tokens walk) (equalityOf reader) := by
  have hops : ∀ rule : Rule, .eof ∉ rule.operators := fun _ => Rule.eof_not_mem_operators
  exact (((H.chain (hops .factor)).chain (hops .term)).chain (hops .comparison)).chain
    (hops .equality)

theorem agrees_close (line : Int) (inner : Expr) :
    Agrees tokens (close? tokens line inner) (close line inner) := by
  intro i h
  obtain ⟨t, hget, hdrop, hnext⟩ := h.exists_getElem?
  rw [close?, whenMatch?_of_getElem? hget (by decide), hdrop, close]
  by_cases hclose : t.kind = .rightParen
  · have hend : t.isEnd = false := Token.isEnd_eq_false (by simp [hclose])
    rw [if_pos (by simpa using hclose), if_pos hclose]
    exact ⟨rfl, hnext hend⟩
  · rw [if_neg (by simpa using hclose), if_neg hclose]
    exact ⟨fail?_of_getElem? hget, h⟩

theorem agrees_primary {inner : Option PlaceReader} {read : Option Reader}
    (H : Option.Rel (Agrees tokens) inner read) :
    Agrees tokens (primary? tokens inner) (primaryWith read) := by
  intro i h
  obtain ⟨t, hget, hdrop, hnext⟩ := h.exists_getElem?
  have hend : t.kind ≠ .eof → EndAhead tokens (i + 1) := fun hk => hnext (Token.isEnd_eq_false hk)
  rw [hdrop]
  generalize ho : primaryWith read (t :: tokens.drop (i + 1)) = o
  simp (disch := decide) only [primary?, whenMatch?_of_getElem? hget, fail?_of_getElem? hget,
    List.mem_cons, List.not_mem_nil, or_false]
  simp only [primaryWith] at ho
  split at ho
  case h_7 hk =>
    simp only [hk, reduceCtorEq, or_self, if_true, if_false]
    have hahead := hend (by simp [hk])
    cases H with
    | none =>
      subst ho
      exact ⟨rfl, hahead⟩
    | some H =>
      obtain ⟨hwalk, hinner⟩ := H (i + 1) hahead
      obtain ⟨hclose, hahead⟩ := Agrees.andThen (agrees_close t.line) hinner
      subst ho
      refine ⟨?_, by simpa [Outcome.shift, Nat.add_assoc] using hahead⟩
      simp [group?, hwalk, hclose]
  case h_8 =>
    subst ho
    exact ⟨by simp_all, h⟩
  all_goals
    next hk =>
      subst ho
      exact ⟨by simp [hk], hend (by simp [hk])⟩

theorem agrees_unary (budget : Nat) : Agrees tokens (unary? tokens budget) (unary budget) := by
  induction budget using Nat.strongRecOn with
  | ind budget ih =>
    intro i h
    obtain ⟨t, hget, hdrop, hnext⟩ := h.exists_getElem?
    rw [unary?, whenMatch?_of_getElem? hget (by decide)]
    by_cases hop : t.kind ∈ Rule.unaryOperators
    · have hend : t.isEnd = false := Token.isEnd_eq_false fun hk => absurd (hk ▸ hop) (by decide)
      rw [if_pos hop, hdrop]
      cases budget with
      | zero =>
        rw [unary_zero_of_mem hop]
        exact ⟨rfl, hnext hend⟩
      | succ budget =>
        obtain ⟨hwalk, hahead⟩ := ih budget (Nat.lt_succ_self _) (i + 1) (hnext hend)
        rw [unary_succ_of_mem hop]
        refine ⟨by simp [hwalk], ?_⟩
        simpa [applyUnary, Nat.add_assoc, Nat.add_comm 1] using hahead
    · have hhead : ∀ u ∈ (tokens.drop i).head?, u.kind ∉ Rule.unaryOperators := by
        simpa [hdrop] using hop
      rw [if_neg hop, unary_of_not_mem hhead]
      by_cases hbudget : 7 ≤ budget
      · obtain ⟨budget, rfl⟩ := Nat.exists_eq_add_of_le' hbudget
        exact agrees_primary (.some (ih budget (by omega)).equality) i h
      · have hlt : budget < 7 := Nat.lt_of_not_le hbudget
        rw [primary_of_lt_seven hlt]
        match budget, hlt with
        | 0, _ | 1, _ | 2, _ | 3, _ | 4, _ | 5, _ | 6, _ => exact agrees_primary .none i h

theorem agrees_finish (e : Expr) : Agrees tokens (finish? tokens e) (finish e) := by
  intro i h
  obtain ⟨t, hget, hdrop, -⟩ := h.exists_getElem?
  rw [finish?, hdrop, finish, isAtEnd?, peek?, hget]
  cases hend : t.isEnd with
  | true => exact ⟨by simp [hend], h⟩
  | false => exact ⟨by simp [hend, fail?_of_getElem? hget], h⟩

theorem agrees_rule (rule : Rule) (budget : Nat) :
    Agrees tokens (rule? tokens rule budget) (rule.apply budget) := by
  have hops : ∀ rule : Rule, .eof ∉ rule.operators := fun _ => Rule.eof_not_mem_operators
  have hunary : Agrees tokens (unary? tokens budget) (unary budget) := agrees_unary budget
  have hfactor := hunary.chain (hops .factor)
  have hterm := hfactor.chain (hops .term)
  cases rule with
  | expression | equality => exact hunary.equality
  | comparison => exact hterm.chain (hops .comparison)
  | term => exact hterm
  | factor => exact hfactor
  | unary => exact hunary
  | primary =>
    by_cases hbudget : 7 ≤ budget
    · obtain ⟨budget, rfl⟩ := Nat.exists_eq_add_of_le' hbudget
      exact agrees_primary (.some (agrees_unary budget).equality)
    · have hlt : budget < 7 := Nat.lt_of_not_le hbudget
      match budget, hlt with
      | 0, _ | 1, _ | 2, _ | 3, _ | 4, _ | 5, _ | 6, _ => exact agrees_primary .none

theorem agrees_readAll (budget : Nat) :
    Agrees tokens (readAll? tokens budget) (readAll budget) := by
  intro i h
  obtain ⟨hwalk, hahead⟩ := (agrees_unary budget).equality i h
  simp only [readAll?, hwalk]
  exact Agrees.andThen agrees_finish hahead

theorem endAhead_zero (closed : tokens.getLast?.any Token.isEnd) : EndAhead tokens 0 := by
  obtain ⟨t, ht, hend⟩ := (Option.any_eq_true ..).1 closed
  exact ⟨t, List.mem_of_getLast? ht, hend⟩

/-- On a list that an end token closes no look is outside of the list, and the walk comes to what
the parse comes to: an expression, or one diagnostic. -/
theorem parse?_eq (closed : tokens.getLast?.any Token.isEnd) (budget : Nat) (reporter : Reporter) :
    ∃ outcome, parse? tokens budget = some outcome ∧
      parseTokens tokens reporter budget = (.ok (.ofOutcome outcome),
        reporter.reportAll (ParseResult.ofOutcome outcome).diagnostics) := by
  obtain ⟨hwalk, hahead⟩ := (agrees_unary budget).equality 0 (endAhead_zero closed)
  obtain ⟨hread, hahead⟩ := Agrees.andThen agrees_finish hahead
  have hall : andThen? (equalityOf (unary budget) tokens) (finish? tokens) 0 =
      some (readAll budget tokens) := hread
  have hend : EndAhead tokens (0 + (readAll budget tokens).taken) := hahead
  simp only [parse?, hwalk, List.drop_zero, Option.bind_eq_bind, Option.bind_some, hall]
  rcases (readAll budget tokens).accept_or_fail with ⟨e, n, ho⟩ | ⟨failure, n, ho⟩
  · refine ⟨.ok e, ?_, ?_⟩
    · rw [ho]
      rfl
    · simp [parseTokens_of_accept closed ho, ParseResult.ofOutcome]
  · rw [ho, Nat.zero_add] at hend
    obtain ⟨t, hget, -⟩ := hend.exists_getElem?
    have hpeek : peek? tokens n = some t := hget
    refine ⟨.error (Parse.blame t failure.message), ?_, ?_⟩
    · simp only [ho, Outcome.fail, hpeek]
      rfl
    · simp [parseTokens_of_fail closed ho hget, ParseResult.ofOutcome]

end Walk

end LoxSyntax
