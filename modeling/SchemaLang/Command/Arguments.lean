/-!
# Command line arguments

A command line names an action and a file. Options may stand before or after the
action; they are read from left to right, and the first one that settles the answer
does so.
-/
namespace SchemaLang.Command

inductive TokenFormat where
  | text
  | json
  deriving DecidableEq, Repr

inductive ProgramFormat where
  | term
  | json
  deriving DecidableEq, Repr

/-- What is to be done with a file. -/
inductive Action where
  | tokens (format : TokenFormat)
  | parse (format : ProgramFormat)
  | check
  deriving DecidableEq, Repr

structure Invocation where
  verbosity : Nat
  action : Action
  file : String
  deriving DecidableEq, Repr

/-- What a command line asks for. -/
inductive Request where
  | run (invocation : Invocation)
  | version
  | help
  | invalid
  deriving DecidableEq, Repr

/-- The action of the given name with the format that it has unless another is chosen. -/
def Action.ofName? : String → Option Action
  | "tokens" => some (tokens .text)
  | "parse" => some (parse .term)
  | "check" => some check
  | _ => none

/-- The action with its format chosen by name. -/
def Action.withFormat? : Action → String → Option Action
  | tokens _, "text" => some (tokens .text)
  | tokens _, "json" => some (tokens .json)
  | parse _, "debug" => some (parse .term)
  | parse _, "json" => some (parse .json)
  | _, _ => none

/-- One argument by its form. A single dash is a plain word. -/
inductive Argument where
  | plain (word : String)
  | short (flags : List Char)
  | long (name : String) (value : Option String)
  /-- Two dashes alone: only plain words follow. -/
  | separator
  deriving DecidableEq, Repr

/-- The name and, behind an equals sign, the value of a long option. -/
def splitValue (cs : List Char) : Argument :=
  let name := String.ofList (cs.takeWhile (· ≠ '='))
  match cs.dropWhile (· ≠ '=') with
  | [] => .long name none
  | _ :: value => .long name (some (String.ofList value))

def Argument.ofWord (word : String) : Argument :=
  match word.toList with
  | ['-', '-'] => .separator
  | '-' :: '-' :: cs => splitValue cs
  | '-' :: c :: cs => .short (c :: cs)
  | _ => .plain word

/-- How many more times `v` is given among short flags that allow nothing else but `h` and,
if `version` says so, `V`; these settle the answer. -/
def countFlags (version : Bool) : List Char → Except Request Nat
  | [] => .ok 0
  | 'v' :: flags => (countFlags version flags).map (· + 1)
  | 'V' :: _ => .error (if version then .version else .invalid)
  | 'h' :: _ => .error .help
  | _ => .error .invalid

/-- What has been given behind the action's name. -/
structure Given where
  /-- The count before the name. It holds unless the option comes again. -/
  outerVerbosity : Nat
  verbosity : Nat := 0
  action : Action
  formatChosen : Bool := false
  file : Option String := none

namespace Given

/-- One file is needed, and its name is not empty. -/
def addFile? (g : Given) (file : String) : Option Given :=
  if g.file.isSome ∨ file = "" then none else some { g with file := some file }

/-- A format can be chosen once. -/
def chooseFormat? (g : Given) (format : String) : Option Given :=
  if g.formatChosen then none
  else (g.action.withFormat? format).map fun action => { g with action, formatChosen := true }

def addVerbosity (g : Given) (count : Nat) : Given :=
  { g with verbosity := g.verbosity + count }

def finish (g : Given) : Request :=
  match g.file with
  | none => .invalid
  | some file =>
    .run ⟨if g.verbosity = 0 then g.outerVerbosity else g.verbosity, g.action, file⟩

/-- The arguments behind two dashes. -/
def readFiles (g : Given) : List String → Request
  | [] => g.finish
  | file :: files =>
    match g.addFile? file with
    | some g' => g'.readFiles files
    | none => .invalid

/-- The arguments behind the action's name. -/
def read (g : Given) : List String → Request
  | [] => g.finish
  | word :: words =>
    match Argument.ofWord word with
    | .plain file =>
      match g.addFile? file with
      | some g' => g'.read words
      | none => .invalid
    | .short flags =>
      match countFlags false flags with
      | .ok count => (g.addVerbosity count).read words
      | .error request => request
    | .long "verbose" none => (g.addVerbosity 1).read words
    | .long "help" none => .help
    | .long "format" (some format) =>
      match g.chooseFormat? format with
      | some g' => g'.read words
      | none => .invalid
    | .long "format" none =>
      match words with
      | [] => .invalid
      | format :: rest =>
        match g.chooseFormat? format with
        | some g' => g'.read rest
        | none => .invalid
    | .long _ _ => .invalid
    | .separator => g.readFiles words

end Given

/-- The request behind the word `help`, which one action at most, or itself, may follow. -/
def Request.ofTopics : List String → Request
  | [] => .help
  | [topic] => if topic = "help" ∨ (Action.ofName? topic).isSome then .help else .invalid
  | _ => .invalid

/-- The request of a whole command line, `verbosity` having been counted before. -/
def Request.read (verbosity : Nat) : List String → Request
  | [] => .invalid
  | word :: words =>
    match Argument.ofWord word with
    | .plain "help" => Request.ofTopics words
    | .plain name =>
      match Action.ofName? name with
      | some action => Given.read { outerVerbosity := verbosity, action } words
      | none => .invalid
    | .short flags =>
      match countFlags true flags with
      | .ok count => Request.read (verbosity + count) words
      | .error request => request
    | .long "verbose" none => Request.read (verbosity + 1) words
    | .long "version" none => .version
    | .long "help" none => .help
    | .long _ _ => .invalid
    | .separator => .invalid

def Request.ofArguments (words : List String) : Request := Request.read 0 words

end SchemaLang.Command
