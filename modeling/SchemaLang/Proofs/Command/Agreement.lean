import SchemaLang.Command.Directory

/-!
# The actions agree

All actions tokenize first, and what parses is what checks. So an action that gets
further than another has succeeded where the other failed, and two that fail at the same
point give the same answer, with the same log in front of the same report.
-/
namespace SchemaLang.Command

/-- The answer to an action on a file that holds the given bytes, or that cannot be read. -/
def Action.answerTo (action : Action) (verbosity : Nat) (file : String)
    (content : Except ReadFailure ByteArray) : Outcome :=
  Invocation.answer ⟨verbosity, action, file⟩ (content >>= decode)

section Texts

variable {source : String} {ts : List Token}

/-- A text that is not tokenized is reported by all actions. -/
theorem Action.answer_of_lexical {e : LexError} (h : tokenize source = .error e)
    (action : Action) (file : String) :
    action.answer file source = report file source e.diagnostic := by
  have hsource : parseSource source = .error (.lexical e) := by rw [parseSource, h]
  cases action with
  | tokens format => rw [answer, h]
  | parse format =>
    rw [answer, hsource]
    rfl
  | check =>
    rw [answer, hsource]
    rfl

theorem Action.events_of_lexical {e : LexError} (h : tokenize source = .error e)
    (action : Action) : action.events source = [] := by
  rw [events, h]

/-- The front end on a text that is tokenized. -/
theorem parseSource_of_tokenize (h : tokenize source = .ok ts) :
    parseSource source = (SchemaLang.parse ts).mapError .syntactic := by
  rw [parseSource, h]

/-- Tokens that are not a program are reported in the same way, whether they are parsed or
checked. -/
theorem Action.answer_of_syntactic {e : ParseError} (h : tokenize source = .ok ts)
    (hparse : SchemaLang.parse ts = .error e) (dump : ProgramFormat) (file : String) :
    Action.check.answer file source = report file source e.diagnostic ∧
    (Action.parse dump).answer file source = report file source e.diagnostic := by
  have hsource : parseSource source = .error (.syntactic e) := by
    rw [parseSource_of_tokenize h, hparse]
    rfl
  constructor
  · rw [answer, hsource]
    rfl
  · rw [answer, hsource]
    rfl

/-- Only a check that succeeds has an event of its own. -/
theorem Action.events_of_syntactic {e : ParseError} (h : tokenize source = .ok ts)
    (hparse : SchemaLang.parse ts = .error e) (dump : ProgramFormat) :
    (Action.parse dump).events source = Action.check.events source := by
  simp only [events, h, hparse, List.append_nil]

theorem Action.answer_of_parse {p : Program} (h : tokenize source = .ok ts)
    (hparse : SchemaLang.parse ts = .ok p) (dump : ProgramFormat) (file : String) :
    Action.check.answer file source = ⟨0, "", file ++ ": ok\n"⟩ ∧
    (Action.parse dump).answer file source = ⟨0, dump.render p, ""⟩ := by
  have hsource : parseSource source = .ok p := by
    rw [parseSource_of_tokenize h, hparse]
    rfl
  constructor
  · rw [answer, hsource]
  · rw [answer, hsource]

end Texts

section Contents

variable (action : Action) (verbosity : Nat) (file : String)

/-- The answer where a file has no text: it does not matter what is to be done with it. -/
def unread (failure : ReadFailure) : Outcome :=
  ⟨1, "", "error: cannot read '" ++ file ++ "': " ++ failure.reason ++ "\n"⟩

theorem Action.answerTo_of_notText {bytes : ByteArray} (h : String.fromUTF8? bytes = none) :
    action.answerTo verbosity file (.ok bytes) = unread file .notText := by
  change Invocation.answer _ (decode bytes) = _
  rw [decode, h]
  rfl

/-- With a text the log comes in front of what is said otherwise. -/
theorem Action.answerTo_of_text {bytes : ByteArray} {source : String}
    (h : String.fromUTF8? bytes = some source) : action.answerTo verbosity file (.ok bytes) =
      ⟨(action.answer file source).exitCode, (action.answer file source).stdout,
        logText verbosity (action.events source) ++ (action.answer file source).stderr⟩ := by
  change Invocation.answer _ (decode bytes) = _
  rw [decode, h]
  rfl

end Contents

/-- The three actions agree on what a file holds. Without a text they all say the same. A text
that is not tokenized is reported by all in the same way, one that is tokenized but is not a
program is reported in the same way by those that parse it, and checking prints no more than that
all is well. -/
theorem actions_agree (verbosity : Nat) (file : String) (content : Except ReadFailure ByteArray)
    (format : TokenFormat) (dump : ProgramFormat) :
    let tokens := (Action.tokens format).answerTo verbosity file content
    let parse := (Action.parse dump).answerTo verbosity file content
    let check := Action.check.answerTo verbosity file content
    check.exitCode = parse.exitCode ∧ check.stdout = "" ∧
    match content with
    | .error failure => tokens = unread file failure ∧ parse = tokens ∧ check = tokens
    | .ok bytes =>
      match String.fromUTF8? bytes with
      | none => tokens = unread file .notText ∧ parse = tokens ∧ check = tokens
      | some source =>
        match tokenize source with
        | .error e =>
          parse = tokens ∧ check = tokens ∧ tokens = ⟨1, "", e.diagnostic.render file source⟩
        | .ok ts =>
          tokens.exitCode = 0 ∧
          match SchemaLang.parse ts with
          | .error e =>
            parse = check ∧ check = ⟨1, "", logText verbosity (Action.check.events source) ++
              e.diagnostic.render file source⟩
          | .ok _ =>
            check = ⟨0, "", logText verbosity (Action.check.events source) ++
              (file ++ ": ok\n")⟩ := by
  intro tokens parse check
  cases content with
  | error failure => exact ⟨rfl, rfl, rfl, rfl, rfl⟩
  | ok bytes =>
    dsimp only
    cases htext : String.fromUTF8? bytes with
    | none =>
      have hall (action : Action) := action.answerTo_of_notText verbosity file htext
      simp only [tokens, parse, check, hall]
      exact ⟨trivial, rfl, trivial, trivial, trivial⟩
    | some source =>
      have hall (action : Action) := action.answerTo_of_text verbosity file htext
      dsimp only
      cases htokens : tokenize source with
      | error e =>
        -- no action has logged anything, so the reports are all that is written
        have hreport (action : Action) : action.answerTo verbosity file (.ok bytes) =
            ⟨1, "", e.diagnostic.render file source⟩ := by
          rw [hall, Action.answer_of_lexical htokens, Action.events_of_lexical htokens]
          exact congrArg (Outcome.mk 1 "") String.empty_append
        simp only [tokens, parse, check, hreport, and_self]
      | ok ts =>
        have hlisted : tokens.exitCode = 0 := by
          simp only [tokens, hall, Action.answer, htokens]
        dsimp only
        cases hparse : SchemaLang.parse ts with
        | error e =>
          obtain ⟨hcheck, hdump⟩ := Action.answer_of_syntactic htokens hparse dump file
          have hsame : parse = check := by
            simp only [parse, check, hall, hcheck, hdump,
              Action.events_of_syntactic htokens hparse dump]
          have hreport : check = ⟨1, "", logText verbosity (Action.check.events source) ++
              e.diagnostic.render file source⟩ := by
            simp only [check, hall, hcheck, report]
          exact ⟨by rw [hsame], by rw [hreport], hlisted, hsame, hreport⟩
        | ok p =>
          obtain ⟨hcheck, hdump⟩ := Action.answer_of_parse htokens hparse dump file
          have hwell : check = ⟨0, "", logText verbosity (Action.check.events source) ++
              (file ++ ": ok\n")⟩ := by
            simp only [check, hall, hcheck]
          have hparsed : parse.exitCode = 0 := by
            simp only [parse, hall, hdump]
          exact ⟨by rw [hwell, hparsed], by rw [hwell], hlisted, hwell⟩

end SchemaLang.Command
