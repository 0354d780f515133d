import SchemaLang.Command.Log
import SchemaLang.Program.Json
import SchemaLang.Program.Term

/-!
# Running a command line

The answer to a command line is an exit code and two texts. Only a request to run an
action looks at a file, and at nothing else, so the file's content is a parameter.
-/
namespace SchemaLang.Command

/-- Why a file has no text. -/
inductive ReadFailure where
  | notFound
  | isDirectory
  | notDirectory
  | notText
  | other (reason : String)
  deriving DecidableEq, Repr

def ReadFailure.reason : ReadFailure → String
  | notFound => "No such file or directory (os error 2)"
  | isDirectory => "Is a directory (os error 21)"
  | notDirectory => "Not a directory (os error 20)"
  | notText => "stream did not contain valid UTF-8"
  | other reason => reason

structure Outcome where
  exitCode : Nat
  stdout : String
  stderr : String
  deriving DecidableEq, Repr

def padLeft (width : Nat) (s : String) : String :=
  String.ofList (List.replicate (width - s.length) ' ') ++ s

def padRight (width : Nat) (s : String) : String :=
  s ++ String.ofList (List.replicate (width - s.length) ' ')

/-- A token in columns, the lexeme last. -/
def tokenLine (t : Token) : String :=
  padLeft 4 (toString t.position.line) ++ ":" ++ padRight 4 (toString t.position.column) ++ " " ++
    padRight 15 t.kind.name ++ " " ++ t.lexeme

/-- One line for each token. -/
def listing (tokens : List Token) : String :=
  String.join (tokens.map fun t => tokenLine t ++ "\n")

def TokenFormat.render : TokenFormat → List Token → String
  | text, tokens => listing tokens
  | json, tokens => (Token.listToJson tokens).text .pretty ++ "\n"

def ProgramFormat.render : ProgramFormat → Program → String
  | term, program => program.toTerm.text .pretty ++ "\n"
  | json, program => program.toJson.text .pretty ++ "\n"

/-- The answer to a source text with an error. -/
def report (file source : String) (d : Diagnostic) : Outcome := ⟨1, "", d.render file source⟩

/-- The answer of an action, its log aside. -/
def Action.answer (action : Action) (file source : String) : Outcome :=
  match action with
  | .tokens format =>
    match tokenize source with
    | .ok list => ⟨0, format.render list, ""⟩
    | .error e => report file source e.diagnostic
  | .parse format =>
    match parseSource source with
    | .ok program => ⟨0, format.render program, ""⟩
    | .error e => report file source e.diagnostic
  | .check =>
    match parseSource source with
    | .ok _ => ⟨0, "", file ++ ": ok\n"⟩
    | .error e => report file source e.diagnostic

/-- The answer of an invocation whose file has the given content. The log comes first. -/
def Invocation.answer (i : Invocation) (content : Except ReadFailure String) : Outcome :=
  match content with
  | .error failure =>
    ⟨1, "", "error: cannot read '" ++ i.file ++ "': " ++ failure.reason ++ "\n"⟩
  | .ok source =>
    let outcome := i.action.answer i.file source
    { outcome with stderr := logText i.verbosity (i.action.events source) ++ outcome.stderr }

def versionText : String := "jlc 0.1.0\n"

def usage : String :=
  "Usage: jlc [-v]... <tokens|parse|check> [--format FORMAT] <FILE>\n"

/-- The answer to a request; `read` gives the text of a file. -/
def Request.answer (read : String → Except ReadFailure String) : Request → Outcome
  | run i => i.answer (read i.file)
  | version => ⟨0, versionText, ""⟩
  | help => ⟨0, usage, ""⟩
  | invalid => ⟨2, "", usage⟩

end SchemaLang.Command
