import LoxSyntax.Proofs.Run.Strictness
import LoxSyntax.Session

/-! # A session is its lines one by one

What a session writes at a line depends on the line and on how often a mode has been turned before
it, and on nothing else: an expression is answered as in a run of its own (`Session.run_eq`). A session
breaks off at the first line whose run of its own breaks off, which is one whose tree is too deep for
the room that there is (`Session.Reading.fault?_eq_some_iff`); later lines are not answered
(`Session.run_sumOfOnes`). -/

namespace LoxSyntax

variable {line : String}

theorem Output.append_assoc (a b c : Output) : a ++ b ++ c = a ++ (b ++ c) :=
  congrArg₂ Output.mk (String.append_assoc ..) (String.append_assoc ..)

theorem Text.trimBoth_of_forall {p : Char → Bool} {text : List Char} (h : ∀ c ∈ text, p c = false) :
    trimBoth p text = text := by
  have hdrop {cs : List Char} (hcs : ∀ c ∈ cs, p c = false) : cs.dropWhile p = cs := by
    cases cs with
    | nil => rfl
    | cons c cs => simp [hcs c]
  rw [trimBoth, hdrop h, hdrop (by simpa using h), List.reverse_reverse]

namespace Session

/-! ## The lines of a session -/

/-- What a run of the line alone writes, its diagnostics under a heading if it has any. -/
def alone (modes : Modes) (line : String) (room : Nat) : Output :=
  let report := Run.text line modes false room
  ⟨report.output.stdout,
    match report.ending with
    | .ok 0 => ""
    | _ => "[error] >>>\n" ++ report.output.stderr⟩

/-- Whether a command stands on an odd number of the lines. -/
def turned (command : String) (lines : List String) : Bool :=
  lines.countP (Text.trim · = command) % 2 = 1

def modesAfter (modes : Modes) (lines : List String) : Modes where
  tokens := modes.tokens ^^ turned ":tokens" lines
  json := modes.json ^^ turned ":json" lines

def leaves (line : String) : Bool := Text.trim line = "exit" || Text.trim line = "quit"

/-- A line that does not end the session, and the modes under which it is read. -/
structure Reading where
  modes : Modes
  line : String

namespace Reading

/-- The lines that are source texts. -/
def evaluates (r : Reading) : Bool := Text.trim r.line ∉ ["", ":tokens", ":json"]

/-- What breaks the session off at the line, if anything does: what breaks off a run of the line
alone. -/
def fault? (r : Reading) (room : Nat) : Option Run.Fault :=
  if r.evaluates then
    match (Run.text r.line r.modes false room).ending with
    | .ok _ => none
    | .error fault => some fault
  else none

/-- What is written at the line, unless the session breaks off there. -/
def answer (r : Reading) (room : Nat) : Output :=
  if Text.trim r.line = "" then {}
  else if Text.trim r.line = ":tokens" then modeLine "Token" (!r.modes.tokens)
  else if Text.trim r.line = ":json" then modeLine "JSON" (!r.modes.json)
  else alone r.modes r.line room

end Reading

/-- The lines up to the one that ends the session. -/
def readings (modes : Modes) (lines : List String) : List Reading :=
  let read := lines.takeWhile (!leaves ·)
  read.mapIdx fun i line => ⟨modesAfter modes (read.take i), line⟩

def join (outputs : List Output) : Output := outputs.foldr (· ++ ·) {}

/-- What a session comes to after its banner: at each line up to the first that breaks off the prompt
and an answer under the modes of that line; then, if none does, the prompt and a farewell. -/
def conversation (modes : Modes) (lines : List String) (room : Nat) : Report :=
  let answered := (readings modes lines).takeWhile fun r => (r.fault? room).isNone
  let said := join (answered.map fun r => prompt ++ r.answer room)
  match (readings modes lines).findSome? (·.fault? room) with
  | some fault => ⟨said ++ prompt, .error fault⟩
  | none =>
    let closing := if lines.any leaves then { stdout := farewell } else endOfInput
    .succeed (said ++ (prompt ++ closing)) 0

variable {s : Session} {modes : Modes} {lines more : List String} {room : Nat} {fault : Run.Fault}

/-! ## One line -/

theorem Command.ofLine_eq (line : String) :
    Command.ofLine line =
      if leaves line then .leave
      else if Text.trim line = "" then .skip
      else if Text.trim line = ":tokens" then .toggleTokens
      else if Text.trim line = ":json" then .toggleJson
      else .evaluate := by
  simp only [ofLine, leaves]
  split <;> simp_all

/-- A source text is answered as in a run of its own, and breaks the session off if it breaks off that
run. The diagnostics of earlier lines do not show. -/
theorem evaluate_cases (line : String) (s : Session) (room : Nat) :
    (∃ fault, (Run.text line s.modes false room).ending = .error fault ∧
      s.evaluate line room = .error fault) ∨
    ∃ status reporter, (Run.text line s.modes false room).ending = .ok status ∧
      s.evaluate line room = .ok (alone s.modes line room, { s with reporter }) := by
  obtain ⟨tokens, result, reporter, hrun⟩ := exists_runSource_eq line {}
  have hreset : s.reporter.reset = {} := rfl
  cases hrender : s.modes.render tokens result room with
  | error fault =>
    refine .inl ⟨.unprintable fault, ?_, ?_⟩
    · simp only [Run.text, hrun, hrender, Bool.false_and, Bool.false_eq_true, if_false, Report.fail]
    · simp only [evaluate, hreset, hrun, hrender]
  | ok stdout =>
    refine .inr ⟨if reporter.hadError then Run.dataError else 0, reporter, ?_, ?_⟩
    · simp only [Run.text, hrun, hrender, Bool.false_and, Bool.false_eq_true, if_false,
        Report.succeed]
    · simp only [evaluate, alone, Run.text, hreset, hrun, hrender, Bool.false_and,
        Bool.false_eq_true, if_false, Report.succeed]
      cases reporter.hadError <;> rfl

theorem step_of_leaves (h : leaves line = true) (room : Nat) :
    s.step line room = .ok ({ stdout := farewell }, none) := by
  simp only [step, Command.ofLine_eq, h, if_true]

theorem turned_cons (command line : String) (lines : List String) :
    turned command (line :: lines) = ((Text.trim line = command) ^^ turned command lines) := by
  rw [turned, turned, List.countP_cons, Bool.eq_iff_iff, bne_iff_ne]
  by_cases h : Text.trim line = command
  · simp only [h, decide_true, if_true, decide_eq_true_eq, ne_eq, true_eq_decide_iff]
    omega
  · simp [h]

@[simp] theorem turned_nil (command : String) : turned command [] = false := rfl

/-- A line that does not end the session breaks it off, or is answered and turns the modes. -/
theorem step_of_not_leaves (h : leaves line = false) (s : Session) (room : Nat) :
    (∃ fault, Reading.fault? ⟨s.modes, line⟩ room = some fault ∧ s.step line room = .error fault) ∨
    Reading.fault? ⟨s.modes, line⟩ room = none ∧ ∃ reporter, s.step line room =
      .ok (Reading.answer ⟨s.modes, line⟩ room, some ⟨modesAfter s.modes [line], reporter⟩) := by
  simp only [step, Command.ofLine_eq, h, Bool.false_eq_true, if_false, Reading.answer, modesAfter,
    turned_cons, turned_nil, Bool.xor_false, Reading.fault?, Reading.evaluates]
  by_cases hskip : Text.trim line = ""
  · exact .inr ⟨by simp [hskip], s.reporter, by simp [hskip]⟩
  by_cases htokens : Text.trim line = ":tokens"
  · exact .inr ⟨by simp [htokens], s.reporter, by simp [htokens]⟩
  by_cases hjson : Text.trim line = ":json"
  · exact .inr ⟨by simp [hjson], s.reporter, by simp [hjson]⟩
  rcases evaluate_cases line s room with
    ⟨fault, hending, hevaluate⟩ | ⟨status, reporter, hending, hevaluate⟩
  · exact .inl ⟨fault, by simp [hskip, htokens, hjson, hending],
      by simp [hskip, htokens, hjson, hevaluate, Except.map]⟩
  · exact .inr ⟨by simp [hskip, htokens, hjson, hending], reporter,
      by simp [hskip, htokens, hjson, hevaluate, Except.map]⟩

/-- A line breaks the session off exactly if it is a source text whose tree there is no room to
write. -/
theorem Reading.fault?_eq_some_iff (r : Reading) (room : Nat) :
    r.fault? room = some fault ↔ r.evaluates = true ∧ fault = .unprintable .tooDeep ∧
      ∃ tokens result reporter, runSource r.line {} = (.ok (tokens, result), reporter) ∧
        ¬ r.modes.Fits room result := by
  obtain ⟨tokens, result, reporter, hrun⟩ := exists_runSource_eq r.line {}
  have hresult {tokens' result' reporter'}
      (h : runSource r.line {} = (.ok (tokens', result'), reporter')) : result' = result := by
    cases hrun.symm.trans h
    rfl
  cases hevaluates : r.evaluates with
  | false => simp [fault?, hevaluates]
  | true =>
    by_cases hfits : r.modes.Fits room result
    · obtain ⟨stdout, hrender, -⟩ := Modes.exists_render_of_fits hrun hfits
      simp only [fault?, hevaluates, if_true, Run.text_plain hrun hrender, Report.succeed]
      refine iff_of_false (by simp) ?_
      rintro ⟨-, -, tokens', result', reporter', hrun', hnot⟩
      exact hnot (hresult hrun' ▸ hfits)
    · have htext := Run.text_plain_of_tooDeep hrun (Modes.render_of_not_fits hrun hfits)
      simp only [fault?, hevaluates, if_true, htext, Report.fail, Option.some.injEq, true_and]
      exact ⟨fun h => ⟨h.symm, tokens, result, reporter, hrun, hfits⟩, fun h => h.1.symm⟩

/-! ## One line after the other -/

theorem modesAfter_cons (modes : Modes) (line : String) (lines : List String) :
    modesAfter modes (line :: lines) = modesAfter (modesAfter modes [line]) lines := by
  simp only [modesAfter, turned_cons, turned_nil, Bool.xor_false, Bool.xor_assoc]

theorem readings_of_leaves (h : leaves line = true) (modes : Modes) (lines : List String) :
    readings modes (line :: lines) = [] := by
  simp [readings, h]

theorem readings_of_not_leaves (h : leaves line = false) (modes : Modes) (lines : List String) :
    readings modes (line :: lines) = ⟨modes, line⟩ :: readings (modesAfter modes [line]) lines := by
  have hread : (line :: lines).takeWhile (!leaves ·) = line :: lines.takeWhile (!leaves ·) := by
    simp [h]
  have hmodes : modesAfter modes [] = modes := by simp [modesAfter]
  simp only [readings, hread, List.mapIdx_cons, List.take_zero, hmodes, List.take_succ_cons,
    modesAfter_cons modes line (List.take _ _)]

theorem conversation_of_leaves (h : leaves line = true) (modes : Modes) (lines : List String)
    (room : Nat) :
    conversation modes (line :: lines) room = .succeed (prompt ++ { stdout := farewell }) 0 := by
  simp only [conversation, readings_of_leaves h, List.any_cons, h, Bool.true_or, if_true]
  rfl

section NotLeaving

variable (h : leaves line = false)

include h

theorem conversation_of_fault (hfault : Reading.fault? ⟨modes, line⟩ room = some fault)
    (lines : List String) :
    conversation modes (line :: lines) room = ⟨prompt, .error fault⟩ := by
  simp only [conversation, readings_of_not_leaves h, List.findSome?_cons, hfault,
    List.takeWhile_cons, Option.isNone_some, Bool.false_eq_true, if_false]
  rfl

theorem conversation_of_answer (hfault : Reading.fault? ⟨modes, line⟩ room = none)
    (lines : List String) :
    conversation modes (line :: lines) room =
      (conversation (modesAfter modes [line]) lines room).after
        (prompt ++ Reading.answer ⟨modes, line⟩ room) := by
  have hany : (line :: lines).any leaves = lines.any leaves := by simp [h]
  have hjoin (outputs : List Output) (output : Output) :
      join (output :: outputs) = output ++ join outputs := rfl
  simp only [conversation, readings_of_not_leaves h, List.findSome?_cons, hfault, hany,
    List.takeWhile_cons, Option.isNone_none, if_true, List.map_cons, hjoin]
  split
  · next hrest => simp only [Report.after, hrest, Output.append_assoc]
  · next hrest => simp only [Report.after, Report.succeed, hrest, Output.append_assoc]

end NotLeaving

/-- A session comes to the conversation whatever was reported before it. -/
theorem run_eq (s : Session) (lines : List String) (room : Nat) :
    s.run lines room = conversation s.modes lines room := by
  induction lines generalizing s with
  | nil => rfl
  | cons line lines ih =>
    cases h : leaves line with
    | true => rw [run, step_of_leaves h, conversation_of_leaves h]
    | false =>
      rcases step_of_not_leaves h s room with ⟨fault, hfault, hstep⟩ | ⟨hfault, reporter, hstep⟩
      · rw [run, hstep, conversation_of_fault h hfault]
      · rw [run, hstep, conversation_of_answer h hfault]
        simp only [ih]

/-- The lines after one that ends the session are not read. -/
theorem conversation_append_of_leaves (h : leaves line = true) (modes : Modes)
    (lines more : List String) (room : Nat) :
    conversation modes (lines ++ line :: more) room = conversation modes (lines ++ [line]) room := by
  induction lines generalizing modes with
  | nil => exact (conversation_of_leaves h ..).trans (conversation_of_leaves h ..).symm
  | cons first lines ih =>
    rw [List.cons_append, List.cons_append]
    cases hfirst : leaves first with
    | true => exact (conversation_of_leaves hfirst ..).trans (conversation_of_leaves hfirst ..).symm
    | false =>
      cases hfault : Reading.fault? ⟨modes, first⟩ room with
      | some fault => rw [conversation_of_fault hfirst hfault, conversation_of_fault hfirst hfault]
      | none =>
        rw [conversation_of_answer hfirst hfault, conversation_of_answer hfirst hfault, ih]

/-- A conversation ends normally exactly if it does not break off at any line. -/
theorem conversation_ending_iff (modes : Modes) (lines : List String) (room : Nat) :
    (conversation modes lines room).ending = .ok 0 ↔
      ∀ r ∈ readings modes lines, r.fault? room = none := by
  rw [← List.findSome?_eq_none_iff, conversation]
  split
  · next hfault => simp [hfault]
  · next hnone => simp [hnone, Report.succeed]

/-- A session is its lines one by one, whatever the initial modes and the room are. It writes the
banner, then at each line read the prompt and what the line comes to alone, and at last a farewell. The
mode of a line is the initial one, turned as often as there are commands before the line. It ends
normally exactly if no line breaks it off, which only a source text does that has a tree too deep to be
written. The lines after the end of the session have no effect. -/
theorem transcript_eq_conversation (modes : Modes) (room : Nat) :
    (∀ lines, ((start modes).run lines room).after banner =
      (conversation modes lines room).after banner) ∧
    (∀ input, transcript modes input room = (conversation modes
      ((Text.lines (Text.foldNewlines input.toList)).map String.ofList) room).after banner) ∧
    (∀ lines line more, leaves line = true →
      (start modes).run (lines ++ line :: more) room = (start modes).run (lines ++ [line]) room) ∧
    (∀ lines, (conversation modes lines room).ending = .ok 0 ↔
      ∀ r ∈ readings modes lines, r.fault? room = none) ∧
    ∀ (r : Reading) fault, r.fault? room = some fault ↔
      r.evaluates = true ∧ fault = .unprintable .tooDeep ∧
        ∃ tokens result reporter, runSource r.line {} = (.ok (tokens, result), reporter) ∧
          ¬ r.modes.Fits room result := by
  refine ⟨fun lines => ?_, fun input => ?_, fun lines line more h => ?_,
    fun lines => conversation_ending_iff modes lines room, fun r fault => r.fault?_eq_some_iff room⟩
  · rw [run_eq]
    rfl
  · rw [transcript, run_eq]
    rfl
  · rw [run_eq, run_eq, conversation_append_of_leaves h]

theorem trim_sumOfOnes (n : Nat) : Text.trim (sumOfOnes n) = sumOfOnes n := by
  have hall : ∀ c ∈ (sumOfOnes n).toList, Text.isBlank c = false := by
    rw [sumOfOnes, String.toList_ofList]
    intro c hc
    have hmem : c = '1' ∨ c = '+' := by
      rcases List.mem_cons.1 hc with rfl | hc
      · exact .inl rfl
      · obtain ⟨piece, hpiece, hc⟩ := List.mem_flatten.1 hc
        rw [List.eq_of_mem_replicate hpiece] at hc
        simpa [or_comm] using hc
    rcases hmem with rfl | rfl <;> decide
  rw [Text.trim, Text.trimBoth_of_forall hall, String.ofList_toList]

/-- A sum is none of the texts that do not begin with a one. -/
theorem sumOfOnes_not_mem (n : Nat) {texts : List String}
    (h : ∀ text ∈ texts, text.toList.head? ≠ some '1') : sumOfOnes n ∉ texts := by
  intro hmem
  have hhead := h _ hmem
  rw [sumOfOnes, String.toList_ofList] at hhead
  exact hhead rfl

/-- A line with a sum of three hundred operators is no command, and breaks the session off without an
answer to it or to the line after it. -/
theorem run_sumOfOnes :
    ((start {}).run [sumOfOnes 300, "1"]).after banner =
      ⟨banner ++ prompt, .error (.unprintable .tooDeep)⟩ := by
  obtain ⟨tokens, result, hrun, hdeep⟩ :=
    exists_runSource_sumOfOnes_not_fits rfl (by decide : _ < Modes.cost {} * 300)
  have hleaves : leaves (sumOfOnes 300) = false := by
    have hnot : sumOfOnes 300 ∉ ["exit", "quit"] := sumOfOnes_not_mem 300 (by decide)
    simpa [leaves, trim_sumOfOnes] using hnot
  have hevaluates : Reading.evaluates ⟨{}, sumOfOnes 300⟩ = true := by
    have hnot : sumOfOnes 300 ∉ ["", ":tokens", ":json"] := sumOfOnes_not_mem 300 (by decide)
    simpa [Reading.evaluates, trim_sumOfOnes] using hnot
  have hfault : Reading.fault? ⟨{}, sumOfOnes 300⟩ Expr.defaultRoom = some (.unprintable .tooDeep) :=
    (Reading.fault?_eq_some_iff _ _).2 ⟨hevaluates, rfl, tokens, result, {}, hrun, hdeep⟩
  have hconversation : conversation {} [sumOfOnes 300, "1"] Expr.defaultRoom =
      ⟨prompt, .error (.unprintable .tooDeep)⟩ := conversation_of_fault hleaves hfault ["1"]
  rw [run_eq, start, hconversation]
  rfl

end Session

end LoxSyntax
