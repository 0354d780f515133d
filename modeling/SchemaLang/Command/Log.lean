import SchemaLang.FrontEnd
import SchemaLang.Command.Arguments

/-!
# The log of a run

Running an action is an event history: tokenizing, each module that is complete, the
whole program, and the check. A verbosity of one shows the main events, two or more
show all.
-/
namespace SchemaLang.Command

inductive Event where
  | tokenized (count : Nat)
  | parsedModule (name : String) (declarations : Nat)
  | parsedProgram (modules : Nat)
  | checkPassed (modules declarations : Nat)
  deriving DecidableEq, Repr

namespace Event

/-- The least verbosity that shows the event. -/
def level : Event → Nat
  | tokenized _ => 2
  | parsedModule _ _ => 2
  | parsedProgram _ => 1
  | checkPassed _ _ => 1

def text : Event → String
  | tokenized count => "TRACE jl_lexer: tokenized source count=" ++ toString count
  | parsedModule name declarations =>
    "TRACE jl_parser: parsed module module=" ++ name ++ " declarations=" ++ toString declarations
  | parsedProgram modules => "DEBUG jl_parser: parsed program modules=" ++ toString modules
  | checkPassed modules declarations =>
    "DEBUG jlc: check passed modules=" ++ toString modules ++
      " declarations=" ++ toString declarations

def ofModule (m : Module) : Event := parsedModule m.name.name m.declarations.length

end Event

/-- The events of parsing a token list: the modules before any error, then the program. -/
def parseEvents (tokens : List Token) : List Event :=
  match Parser.ofTokens tokens with
  | .error _ => []
  | .ok parser =>
    let reading := parser.readWithin (some maxNesting)
    reading.modules.map Event.ofModule ++
      match reading.failure with
      | none => [.parsedProgram reading.modules.length]
      | some _ => []

/-- The events of an action on a source text. -/
def Action.events (action : Action) (source : String) : List Event :=
  match tokenize source with
  | .error _ => []
  | .ok list =>
    .tokenized list.length ::
      match action with
      | .tokens _ => []
      | .parse _ => parseEvents list
      | .check =>
        parseEvents list ++
          match SchemaLang.parse list with
          | .ok p => [.checkPassed p.modules.length p.declarationCount]
          | .error _ => []

/-- The lines that the verbosity shows. -/
def logText (verbosity : Nat) (events : List Event) : String :=
  String.join ((events.filter (·.level ≤ verbosity)).map fun e => e.text ++ "\n")

end SchemaLang.Command
