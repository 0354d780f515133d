import SchemaLang.Parser.Error
import SchemaLang.Program.Basic
import SchemaLang.Text.Quoted

/-!
# Reading types and literals

One machine reads object types and literals. It takes a token at a time and keeps
the objects that are still open on a stack; `LeafGrammar` holds what differs
between types and literals. The depth of nesting is the height of the stack.
-/
namespace SchemaLang

/-- What comes of one token. A token that is not expected is not taken; a broken rule
beyond the grammar is noticed when the token has been taken. -/
inductive Verdict (σ ρ : Type) where
  | shift (next : σ)
  | done (result : ρ)
  | fail (error : ParseError)
  | reject

/-- The first name that stood before, as its earlier and its present occurrence. `seen`
holds the names before these. -/
def firstRepeat (seen : List Ident) : List Ident → Option (Ident × Ident)
  | [] => none
  | i :: is =>
    match seen.find? (·.name = i.name) with
    | some first => some (first, i)
    | none => firstRepeat (i :: seen) is

/-- The error of the first repeated name, if there is one. -/
def duplicate? (scope : Scope) (names : List Ident) : Option ParseError :=
  (firstRepeat [] names).map fun (first, second) =>
    .duplicateName second.name scope first.position second.position

def Token.ident? (t : Token) : Option Ident :=
  if t.kind = .identifier then some ⟨t.lexeme, t.position⟩ else none

/-- What is particular to types, or to literals. -/
structure LeafGrammar (α : Type) where
  scope : Scope
  expected : Expected
  /-- The leaf that the token is; `none` if it cannot be one. -/
  leaf? : Token → Option (Except ParseError α)
  /-- Whether a minus sign may begin a leaf. -/
  signed : Bool
  /-- The leaf that the token is behind a minus sign at the given place. -/
  negated? : Position → Token → Option (Except ParseError α)

/-- A type name or a reference. -/
def typeLeaf? (t : Token) : Option (Except ParseError TypeLeaf) :=
  match t.kind with
  | .typeName =>
    some (match Primitive.ofName? t.lexeme with
      | some p => .ok (.primitive p)
      | none => .error (.unexpectedToken .type t.lexeme t.position))
  | .identifier => some (.ok (.named ⟨t.lexeme, t.position⟩))
  | _ => none

def typeGrammar : LeafGrammar TypeLeaf where
  scope := .field
  expected := .type
  leaf? := typeLeaf?
  signed := false
  negated? _ _ := none

/-- The number of the given class and spelling, or an error at the given place. -/
def number? (kind : TokenKind) (lexeme : String) (p : Position) :
    Option (Except ParseError Scalar) :=
  match kind with
  | .integer =>
    some (((Numeral.int64? lexeme).map .integer).elim (.error (.invalidLiteral lexeme p)) .ok)
  | .float =>
    some (((Numeral.Binary64.ofText? lexeme).map .float).elim
      (.error (.invalidLiteral lexeme p)) .ok)
  | _ => none

/-- A number, a string or a truth value. -/
def scalar? (t : Token) : Option (Except ParseError Scalar) :=
  match t.kind with
  | .string => some (.ok (.string (t.stringValue?.getD "")))
  | .boolean => some (.ok (.boolean (t.lexeme = "true")))
  | kind => number? kind t.lexeme t.position

/-- A number read with the minus sign as part of its spelling, and placed there. -/
def negatedNumber? (minus : Position) (t : Token) : Option (Except ParseError Scalar) :=
  number? t.kind ("-" ++ t.lexeme) minus

def literalGrammar : LeafGrammar Scalar where
  scope := .key
  expected := .literal
  leaf? := scalar?
  signed := true
  negated? := negatedNumber?

/-- The entries that an open object has so far, the latest first. -/
abbrev Entries (α : Type) := List (Ident × Tree Ident α)

/-- An open object with the key whose value is being read. -/
structure Frame (α : Type) where
  entries : Entries α
  key : Ident

/-- What is due next. -/
inductive Place (α : Type) where
  | brace
  | value
  | number (minus : Position)
  | entry (entries : Entries α)
  | colon (entries : Entries α) (key : Ident)
  | separator (entries : Entries α)

def Place.expected (g : LeafGrammar α) : Place α → Expected
  | brace => .openBrace
  | value => g.expected
  | number _ => .adjacentNumber
  | entry _ => .identifier
  | colon _ _ => .colon
  | separator _ => .separator

/-- A place within the objects that are open around it, innermost first. -/
structure Body (α : Type) where
  place : Place α
  outer : List (Frame α)

namespace Body

variable {α : Type}

/-- Where a type declaration goes on behind its arrow. -/
def ofBrace : Body α := ⟨.brace, []⟩

/-- Where a binding goes on behind its equals sign. -/
def ofValue : Body α := ⟨.value, []⟩

/-- A value has been read. -/
def complete (tree : Tree Ident α) : List (Frame α) → Verdict (Body α) (Tree Ident α)
  | [] => .done tree
  | f :: outer => .shift ⟨.separator ((f.key, tree) :: f.entries), outer⟩

/-- A token has been read as a leaf. -/
def completeLeaf (leaf : Except ParseError α) (outer : List (Frame α)) :
    Verdict (Body α) (Tree Ident α) :=
  match leaf with
  | .ok value => complete (.leaf value) outer
  | .error e => .fail e

/-- A brace at `p` opens an object, unless `limit` objects are open already. -/
def openObject (limit : Option Nat) (p : Position) (outer : List (Frame α)) :
    Verdict (Body α) (Tree Ident α) :=
  match limit.filter (· ≤ outer.length) with
  | some n => .fail (.nestingTooDeep n p)
  | none => .shift ⟨.entry [], outer⟩

/-- A brace closes an object; its names are compared now. -/
def closeObject (g : LeafGrammar α) (entries : Entries α) (outer : List (Frame α)) :
    Verdict (Body α) (Tree Ident α) :=
  match duplicate? g.scope (entries.reverse.map (·.1)) with
  | some e => .fail e
  | none => complete (.object entries.reverse) outer

def step (g : LeafGrammar α) (limit : Option Nat) (b : Body α) (t : Token) :
    Verdict (Body α) (Tree Ident α) :=
  match b.place with
  | .brace => if t.isSymbol "\x7b" then openObject limit t.position b.outer else .reject
  | .value =>
    if t.isSymbol "\x7b" then openObject limit t.position b.outer
    else if g.signed && t.isSymbol "-" then .shift ⟨.number t.position, b.outer⟩
    else
      match g.leaf? t with
      | some leaf => completeLeaf leaf b.outer
      | none => .reject
  | .number minus =>
    if t.position = minus.next then
      match g.negated? minus t with
      | some leaf => completeLeaf leaf b.outer
      | none => .reject
    else .reject
  | .entry entries =>
    if t.isSymbol "\x7d" then closeObject g entries b.outer
    else
      match t.ident? with
      | some key => .shift ⟨.colon entries key, b.outer⟩
      | none => .reject
  | .colon entries key =>
    if t.isSymbol ":" then .shift ⟨.value, ⟨entries, key⟩ :: b.outer⟩ else .reject
  | .separator entries =>
    if t.isSymbol "\x7d" then closeObject g entries b.outer
    else if t.isSymbol "," then .shift ⟨.entry entries, b.outer⟩
    else .reject

end Body

end SchemaLang
