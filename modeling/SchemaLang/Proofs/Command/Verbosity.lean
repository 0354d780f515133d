import SchemaLang.Proofs.Command.Agreement
import SchemaLang.Proofs.Parser.LongestFront
import SchemaLang.Proofs.Source.Caret

/-!
# The log is all that verbosity adds

An answer is the answer without verbosity, with lines in front of what goes to the error
stream. The lines are those of the events that the verbosity shows, and the events
(`Action.history`) tell of the longest front of the tokens that is a program.
-/
namespace SchemaLang.Command

section CommandLines

def Action.name : Action → String
  | .tokens _ => "tokens"
  | .parse _ => "parse"
  | .check => "check"

def Action.formatOption : Action → List String
  | .tokens .text => ["--format", "text"]
  | .tokens .json => ["--format", "json"]
  | .parse .term => ["--format", "debug"]
  | .parse .json => ["--format", "json"]
  | .check => []

/-- The action with all that it is given, so many flags before its name and so many behind. -/
def Action.commandLine (action : Action) (before behind : Nat) (file : String) : List String :=
  List.replicate before "-v" ++ action.name ::
    (List.replicate behind "-v" ++ (action.formatOption ++ ["--", file]))

theorem Request.read_flags (verbosity n : Nat) (words : List String) :
    Request.read verbosity (List.replicate n "-v" ++ words) =
      Request.read (verbosity + n) words := by
  induction n generalizing verbosity with
  | zero => rfl
  | succ n ih =>
    rw [List.replicate_succ, List.cons_append, Nat.add_comm n, ← Nat.add_assoc]
    exact ih (verbosity + 1)

theorem Given.read_flags (g : Given) (n : Nat) (words : List String) :
    g.read (List.replicate n "-v" ++ words) = (g.addVerbosity n).read words := by
  induction n generalizing g with
  | zero => rfl
  | succ n ih =>
    rw [List.replicate_succ, List.cons_append, Nat.add_comm n]
    refine (ih (g.addVerbosity 1)).trans ?_
    rw [addVerbosity, addVerbosity, addVerbosity, Nat.add_assoc]

/-- The action that the name alone stands for. -/
def Action.unformatted : Action → Action
  | .tokens _ => .tokens .text
  | .parse _ => .parse .term
  | .check => .check

theorem Request.read_name (verbosity : Nat) (action : Action) (words : List String) :
    Request.read verbosity (action.name :: words) =
      Given.read ⟨verbosity, 0, action.unformatted, false, none⟩ words := by
  have hplain : Argument.ofWord action.name = .plain action.name := by
    cases action with
    | tokens => exact (rfl : Argument.ofWord "tokens" = .plain "tokens")
    | parse => exact (rfl : Argument.ofWord "parse" = .plain "parse")
    | check => rfl
  have hknown : Action.ofName? action.name = some action.unformatted := by cases action <;> rfl
  -- no action is called like the word that the first pattern is for
  have hhelp : action.name ≠ "help" := by cases action <;> simp [Action.name]
  simp only [Request.read, hplain, hknown]

theorem Given.readFiles_one {file : String} (h : file ≠ "") (outer n : Nat) (action : Action)
    (chosen : Bool) :
    Given.readFiles ⟨outer, n, action, chosen, none⟩ [file] =
      .run ⟨if n = 0 then outer else n, action, file⟩ := by
  have hadd : Given.addFile? ⟨outer, n, action, chosen, none⟩ file =
      some ⟨outer, n, action, chosen, some file⟩ := by simp [addFile?, h]
  rw [readFiles, hadd]
  rfl

/-- The format makes the action what it was. -/
theorem Given.read_formatOption {file : String} (h : file ≠ "") (outer n : Nat)
    (action : Action) :
    Given.read ⟨outer, n, action.unformatted, false, none⟩ (action.formatOption ++ ["--", file]) =
      .run ⟨if n = 0 then outer else n, action, file⟩ := by
  cases action with
  | tokens format =>
    cases format with
    | text => exact readFiles_one h outer n (.tokens .text) true
    | json => exact readFiles_one h outer n (.tokens .json) true
  | parse format =>
    cases format with
    | term => exact readFiles_one h outer n (.parse .term) true
    | json => exact readFiles_one h outer n (.parse .json) true
  | check => exact readFiles_one h outer n .check false

/-- The verbosity is the number of flags. Flags behind the name make those before it void. -/
theorem Request.ofArguments_commandLine {file : String} (h : file ≠ "") (action : Action)
    (before behind : Nat) :
    Request.ofArguments (action.commandLine before behind file) =
      .run ⟨if behind = 0 then before else behind, action, file⟩ := by
  rw [ofArguments, Action.commandLine, read_flags, read_name, Given.read_flags, Nat.zero_add]
  refine (Given.read_formatOption h before (0 + behind) action).trans ?_
  rw [Nat.zero_add]

end CommandLines

namespace Event

/-- The line is marked as the finest that there is. -/
def IsTrace (line : String) : Prop := "TRACE ".toList <+: line.toList

instance (line : String) : Decidable (IsTrace line) :=
  inferInstanceAs (Decidable ("TRACE ".toList <+: line.toList))

theorem level_pos (e : Event) : 0 < e.level := by
  cases e <;> simp [level]

theorem level_le_two (e : Event) : e.level ≤ 2 := by
  cases e <;> simp [level]

/-- The mark tells the events that only the highest verbosity shows. -/
theorem isTrace_text_iff (e : Event) : IsTrace e.text ↔ e.level = 2 := by
  cases e with
  | tokenized count =>
    have hmark : IsTrace ("TRACE jl_lexer: tokenized source count=" ++ toString count) := by
      simp [IsTrace]
    exact iff_of_true hmark rfl
  | parsedModule name declarations =>
    have hmark : IsTrace ("TRACE jl_parser: parsed module module=" ++ name ++
        " declarations=" ++ toString declarations) := by
      simp [IsTrace]
    exact iff_of_true hmark rfl
  | parsedProgram modules =>
    have hmark : ¬ IsTrace ("DEBUG jl_parser: parsed program modules=" ++ toString modules) := by
      simp [IsTrace]
    exact iff_of_false hmark (by simp [level])
  | checkPassed modules declarations =>
    have hmark : ¬ IsTrace ("DEBUG jlc: check passed modules=" ++ toString modules ++
        " declarations=" ++ toString declarations) := by
      simp [IsTrace]
    exact iff_of_false hmark (by simp [level])

end Event

/-- The lines of the log. -/
def Action.log (action : Action) (verbosity : Nat) (source : String) : List String :=
  ((action.events source).filter (·.level ≤ verbosity)).map Event.text

/-- What is to be told of `count` tokens whose longest front that is a program is `P`, and `whole`
says whether that is all of them. -/
def Action.history (action : Action) (count : Nat) (P : Program) (whole : Bool) : List Event :=
  .tokenized count ::
    match action with
    | .tokens _ => []
    | .parse _ =>
      P.modules.map Event.ofModule ++ if whole then [.parsedProgram P.modules.length] else []
    | .check =>
      P.modules.map Event.ofModule ++
        if whole then
          [.parsedProgram P.modules.length,
            .checkPassed P.modules.length
              ((P.modules.map (·.declarations.length)).foldr (· + ·) 0)]
        else []

section Logs

variable (action : Action) (file source : String)

theorem logText_eq (n : Nat) : logText n (action.events source) =
    String.join ((action.log n source).map (· ++ "\n")) := by
  rw [Action.log, List.map_map]
  rfl

/-- Without verbosity nothing is logged. -/
theorem Action.log_zero : action.log 0 source = [] := by
  simp [log, Event.level_pos, Nat.ne_of_gt]

/-- A verbosity of two shows all events. -/
theorem Action.log_of_two_le {n : Nat} (h : 2 ≤ n) :
    action.log n source = (action.events source).map Event.text := by
  rw [log, List.filter_eq_self.2]
  intro e _
  simpa using e.level_le_two.trans h

/-- A verbosity of one leaves out what is marked. -/
theorem Action.log_one :
    action.log 1 source = (action.log 2 source).filter fun line => ¬ Event.IsTrace line := by
  rw [log_of_two_le action source le_rfl, log, List.filter_map]
  congr 1
  refine List.filter_congr fun e _ => ?_
  have hpos := e.level_pos
  have hle := e.level_le_two
  simp only [Function.comp_apply, Event.isTrace_text_iff, decide_eq_decide]
  omega

theorem Invocation.stderr_answer (n : Nat) :
    (Invocation.answer ⟨n, action, file⟩ (.ok source)).stderr =
      String.join ((action.log n source).map (· ++ "\n")) ++
        (Invocation.answer ⟨0, action, file⟩ (.ok source)).stderr := by
  have hquiet : (Invocation.answer ⟨0, action, file⟩ (.ok source)).stderr =
      (action.answer file source).stderr := by
    change logText 0 (action.events source) ++ _ = _
    rw [logText_eq, action.log_zero]
    exact String.empty_append
  rw [hquiet, ← logText_eq]
  rfl

end Logs

section Histories

/-- The declarations of all modules are those of each, added up. -/
theorem declarationCount_eq_foldr (P : Program) :
    P.declarationCount = (P.modules.map (·.declarations.length)).foldr (· + ·) 0 := by
  rw [Program.declarationCount, List.length_flatMap, List.sum_eq_foldr]

/-- What parsing a token list tells: the modules of the longest front, and the program if there
is one. -/
theorem parseEvents_of_ofTokens {ts : List Token} {q : Parser} (hq : Parser.ofTokens ts = .ok q) :
    ∃ front P, LongestFront q.unread front P ∧ (∀ Q, SchemaLang.parse ts = .ok Q → Q = P) ∧
      parseEvents ts = P.modules.map Event.ofModule ++
        if (SchemaLang.parse ts).isOk then [.parsedProgram P.modules.length] else [] := by
  obtain ⟨front, hrun⟩ := exists_longestFront (ofTokens_eq_ok hq).1 q.endPosition
  have hfront : LongestFront q.unread front ⟨(q.readWithin (some maxNesting)).modules⟩ := hrun
  have hparse : SchemaLang.parse ts = (q.readWithin (some maxNesting)).result := by
    rw [SchemaLang.parse, parseWithin, hq]
    rfl
  rw [parseEvents, hq, hparse]
  dsimp only
  generalize q.readWithin (some maxNesting) = r at hfront
  refine ⟨front, ⟨r.modules⟩, hfront, ?_⟩
  rw [Reading.result]
  cases r.failure with
  | none =>
    refine ⟨?_, rfl⟩
    intro Q hQ
    exact (Except.ok.inj hQ).symm
  | some e =>
    refine ⟨?_, rfl⟩
    intro Q hQ
    simp at hQ

/-- A module of a text is called by a name. -/
theorem isName_of_longestFront {ts front : List Token} {P : Program}
    (h : LongestFront ts front P) (hts : ∀ t ∈ ts, t.Lexed) :
    ∀ m ∈ P.modules, IsName m.name.name := by
  intro m hm
  have hderives := h.derives fun t ht => (hts t ht).kind_ne
  exact (yields_isModule.many _ _ (fun t ht => hts t (h.isPrefix.subset ht)) hderives m hm).1

/-- The events of an action on a text that is tokenized. -/
theorem Action.events_eq_history {source : String} {ts : List Token}
    (h : tokenize source = .ok ts) (action : Action) :
    ∃ front P, LongestFront (withoutEnd ts) front P ∧ (∀ m ∈ P.modules, IsName m.name.name) ∧
      action.events source = action.history ts.length P (SchemaLang.parse ts).isOk := by
  obtain ⟨us, p, rfl, hlexed⟩ := exists_lexed_of_tokenize h
  have hfree : EndFree us := fun t ht => (hlexed t ht).kind_ne
  obtain ⟨front, P, hfront, hwhole, hevents⟩ :=
    parseEvents_of_ofTokens (ofTokens_append_end hfree (e := endAt p) rfl)
  rw [withoutEnd_append_end hfree rfl]
  refine ⟨front, P, hfront, isName_of_longestFront hfront hlexed, ?_⟩
  rw [events, h]
  cases action with
  | tokens => rfl
  | parse => exact congrArg _ hevents
  | check =>
    dsimp only [history]
    rw [hevents]
    cases hparse : SchemaLang.parse (us ++ [endAt p]) with
    | error e => simp [Except.isOk, Except.toBool]
    | ok Q =>
      obtain rfl := hwhole Q hparse
      rw [← declarationCount_eq_foldr]
      simp [Except.isOk, Except.toBool]

/-- An event is told in one line. -/
theorem Event.oneLine_text {e : Event} (h : ∀ name k, e = .parsedModule name k → OneLine name) :
    OneLine e.text := by
  cases e with
  | tokenized count =>
    change OneLine ("TRACE jl_lexer: tokenized source count=" ++ toString count)
    exact oneLine_append_iff.2 ⟨by decide, oneLine_toString count⟩
  | parsedModule name declarations =>
    change OneLine ("TRACE jl_parser: parsed module module=" ++ name ++
      " declarations=" ++ toString declarations)
    simp only [oneLine_append_iff]
    exact ⟨⟨⟨by decide, h name declarations rfl⟩, by decide⟩, oneLine_toString declarations⟩
  | parsedProgram modules =>
    change OneLine ("DEBUG jl_parser: parsed program modules=" ++ toString modules)
    exact oneLine_append_iff.2 ⟨by decide, oneLine_toString modules⟩
  | checkPassed modules declarations =>
    change OneLine ("DEBUG jlc: check passed modules=" ++ toString modules ++
      " declarations=" ++ toString declarations)
    simp only [oneLine_append_iff]
    exact ⟨⟨⟨by decide, oneLine_toString modules⟩, by decide⟩, oneLine_toString declarations⟩

/-- The only names in a history are those of modules. -/
theorem Action.exists_module_of_mem_history {action : Action} {count : Nat} {P : Program}
    {whole : Bool} {name : String} {k : Nat}
    (h : Event.parsedModule name k ∈ action.history count P whole) :
    ∃ m ∈ P.modules, m.name.name = name := by
  have hmodules (last : List Event) (hlast : Event.parsedModule name k ∉ last)
      (hmem : Event.parsedModule name k ∈ P.modules.map Event.ofModule ++ last) :
      ∃ m ∈ P.modules, m.name.name = name := by
    obtain ⟨m, hm, he⟩ := List.mem_map.1 ((List.mem_append.1 hmem).resolve_right hlast)
    exact ⟨m, hm, (Event.parsedModule.inj he).1⟩
  rcases List.mem_cons.1 h with he | hrest
  · simp at he
  · cases action with
    | tokens => simp at hrest
    | parse => exact hmodules _ (by split <;> simp) hrest
    | check => exact hmodules _ (by split <;> simp) hrest

/-- A log consists of lines. -/
theorem Action.oneLine_of_mem_log (action : Action) (n : Nat) (source : String) :
    ∀ line ∈ action.log n source, OneLine line := by
  intro line hline
  obtain ⟨e, he, rfl⟩ := List.mem_map.1 hline
  have hevent := List.mem_of_mem_filter he
  cases h : tokenize source with
  | error error => simp [events_of_lexical h] at hevent
  | ok ts =>
    obtain ⟨front, P, -, hnames, hevents⟩ := action.events_eq_history h
    rw [hevents] at hevent
    refine Event.oneLine_text ?_
    rintro name k rfl
    obtain ⟨m, hm, rfl⟩ := exists_module_of_mem_history hevent
    exact (hnames m hm).oneLine

end Histories

end SchemaLang.Command
