import SchemaLang.Position

/-!
# Tokens

A token is a piece of source text with its lexical class and its place. Words
fall into classes by exact match against the reserved words; all other words
are identifiers.
-/
namespace SchemaLang

inductive TokenKind where
  | keyword
  | identifier
  | typeName
  | symbol
  | integer
  | float
  | string
  | boolean
  | endOfInput
  deriving DecidableEq, Repr

/-- The words that begin a module or a declaration. -/
def keywords : List String := ["module", "type", "const", "let"]

/-- The names of the primitive types. -/
def typeNames : List String := ["Number", "String", "Boolean"]

namespace TokenKind

/-- The name of the class in token listings. -/
def name : TokenKind → String
  | keyword => "Keyword"
  | identifier => "Identifier"
  | typeName => "TypeName"
  | symbol => "Symbol"
  | integer => "NumberLiteral"
  | float => "FloatLiteral"
  | string => "StringLiteral"
  | boolean => "BooleanLiteral"
  | endOfInput => "EndOfFile"

/-- The class in words. -/
def describe : TokenKind → String
  | keyword => "keyword"
  | identifier => "identifier"
  | typeName => "type name"
  | symbol => "symbol"
  | integer => "integer literal"
  | float => "float literal"
  | string => "string literal"
  | boolean => "boolean literal"
  | endOfInput => "end of input"

/-- The class of a word. -/
def ofWord (word : String) : TokenKind :=
  if word ∈ keywords then keyword
  else if word ∈ typeNames then typeName
  else if word = "true" ∨ word = "false" then boolean
  else identifier

def isLiteral : TokenKind → Bool
  | integer | float | string | boolean => true
  | _ => false

end TokenKind

/-- The lexeme is the exact source text of the token, empty at the end of the input. -/
structure Token where
  kind : TokenKind
  lexeme : String
  position : Position
  deriving DecidableEq, Repr

namespace Token

def isKeyword (t : Token) (word : String) : Bool := t.kind = .keyword ∧ t.lexeme = word

def isSymbol (t : Token) (symbol : String) : Bool := t.kind = .symbol ∧ t.lexeme = symbol

/-- The token as messages show it. -/
def display (t : Token) : String :=
  if t.kind = .endOfInput then t.kind.describe else "`" ++ t.lexeme ++ "`"

end Token

end SchemaLang
