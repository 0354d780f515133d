import SchemaLang.Parser.Body

/-!
# The parsing machine

The grammar can be decided one token at a time, so the parser is a machine: a state
holds all that has been read of the current module, and `step` says what a token does
to it. `run` feeds a token list to the machine and keeps each module that is complete.
-/
namespace SchemaLang

/-- What a declaration's keyword announces. -/
inductive Form where
  | type
  | binding (kind : BindingKind)
  deriving DecidableEq, Repr

namespace Form

def keyword : Form → String
  | type => "type"
  | binding kind => kind.keyword

def ofToken? (t : Token) : Option Form :=
  [type, binding .constant, binding .letBound].find? fun form => t.isKeyword form.keyword

/-- The symbol behind the declaration's name. -/
def sign : Form → String
  | type => "=>"
  | binding _ => "="

def expected : Form → Expected
  | type => .arrow
  | binding _ => .equals

end Form

/-- A module whose closing brace has not come, its latest declaration first. -/
structure OpenModule where
  name : Ident
  declarations : List Declaration

namespace OpenModule

def add (m : OpenModule) (d : Declaration) : OpenModule :=
  { m with declarations := d :: m.declarations }

/-- The brace closes the module; its names are compared now. -/
def close (m : OpenModule) : Except ParseError Module :=
  match duplicate? .declaration (m.declarations.reverse.map (·.name)) with
  | some e => .error e
  | none => .ok ⟨m.name, m.declarations.reverse⟩

end OpenModule

inductive State where
  | between
  | moduleName
  | moduleBrace (name : Ident)
  | declarations (m : OpenModule)
  | declarationName (m : OpenModule) (form : Form)
  | sign (m : OpenModule) (form : Form) (name : Ident)
  | fields (m : OpenModule) (name : Ident) (body : Body TypeLeaf)
  | value (m : OpenModule) (kind : BindingKind) (name : Ident) (body : Body Scalar)

namespace State

/-- What a token that does not fit, or the end, is told to be instead. -/
def expected : State → Expected
  | between => .moduleKeyword
  | moduleName => .identifier
  | moduleBrace _ => .openBrace
  | declarations _ => .declaration
  | declarationName _ _ => .identifier
  | sign _ form _ => form.expected
  | fields _ _ body => body.place.expected typeGrammar
  | value _ _ _ body => body.place.expected literalGrammar

/-- Behind the sign of a declaration. -/
def bodyOf (m : OpenModule) (form : Form) (name : Ident) : State :=
  match form with
  | .type => fields m name .ofBrace
  | .binding kind => value m kind name .ofValue

/-- What the verdict on a body means for the module: `resume` wraps a body that goes on
and `declare` the tree of one that is complete. -/
def ofBody (m : OpenModule) (resume : Body α → State) (declare : Tree Ident α → Declaration) :
    Verdict (Body α) (Tree Ident α) → Verdict State Module
  | .shift body => .shift (resume body)
  | .done tree => .shift (declarations (m.add (declare tree)))
  | .fail e => .fail e
  | .reject => .reject

def step (limit : Option Nat) (s : State) (t : Token) : Verdict State Module :=
  match s with
  | between => if t.isKeyword "module" then .shift moduleName else .reject
  | moduleName =>
    match t.ident? with
    | some name => .shift (moduleBrace name)
    | none => .reject
  | moduleBrace name =>
    if t.isSymbol "\x7b" then .shift (declarations ⟨name, []⟩) else .reject
  | declarations m =>
    if t.isSymbol "\x7d" then
      match m.close with
      | .ok complete => .done complete
      | .error e => .fail e
    else
      match Form.ofToken? t with
      | some form => .shift (declarationName m form)
      | none => .reject
  | declarationName m form =>
    match t.ident? with
    | some name => .shift (sign m form name)
    | none => .reject
  | sign m form name => if t.isSymbol form.sign then .shift (bodyOf m form name) else .reject
  | fields m name body =>
    ofBody m (fields m name) (fun tree => .type name tree.entries) (body.step typeGrammar limit t)
  | value m kind name body =>
    ofBody m (value m kind name) (fun tree => .binding kind name (tree.mapKeys (·.name)))
      (body.step literalGrammar limit t)

/-- The input may end between modules only. -/
def atEnd (s : State) (p : Position) : Option ParseError :=
  match s with
  | between => none
  | _ => some (.unexpectedEnd s.expected p)

end State

/-- What a run leaves: the modules that were complete, the error that stopped it, if any,
and the tokens not taken. -/
structure Reading where
  modules : List Module
  failure : Option ParseError
  unread : List Token

namespace Reading

/-- The program, if no error stopped the run. -/
def result (r : Reading) : Except ParseError Program :=
  match r.failure with
  | none => .ok ⟨r.modules⟩
  | some e => .error e

end Reading

/-- Feeds the tokens to the machine; the input ends at `endPosition`. -/
def State.run (limit : Option Nat) (endPosition : Position) (s : State) : List Token → Reading
  | [] => ⟨[], s.atEnd endPosition, []⟩
  | t :: ts =>
    match s.step limit t with
    | .shift next => run limit endPosition next ts
    | .done m =>
      let r := run limit endPosition between ts
      { r with modules := m :: r.modules }
    | .fail e => ⟨[], some e, ts⟩
    | .reject => ⟨[], some (.unexpectedToken s.expected t.lexeme t.position), t :: ts⟩

end SchemaLang
