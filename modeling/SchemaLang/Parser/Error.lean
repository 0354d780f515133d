import SchemaLang.Diagnostic

/-!
# Parse errors

An error says what was expected, or which rule beyond the grammar is broken, and where.
-/
namespace SchemaLang

/-- Where names have to differ from each other. -/
inductive Scope where
  | declaration
  | field
  | key
  deriving DecidableEq, Repr

def Scope.name : Scope → String
  | declaration => "declaration"
  | field => "field"
  | key => "key"

/-- What the parser can ask for. -/
inductive Expected where
  | moduleKeyword
  | identifier
  | openBrace
  | declaration
  | arrow
  | equals
  | colon
  | type
  | literal
  | separator
  | adjacentNumber
  deriving DecidableEq, Repr

def Expected.text : Expected → String
  | moduleKeyword => "`module`"
  | identifier => "identifier"
  | openBrace => "`\x7b`"
  | declaration => "`type`, `const`, `let` or `\x7d`"
  | arrow => "`=>`"
  | equals => "`=`"
  | colon => "`:`"
  | type => "type"
  | literal => "literal value"
  | separator => "`,` or `\x7d`"
  | adjacentNumber => "number directly after `-`"

inductive ParseError where
  | unexpectedToken (expected : Expected) (found : String) (position : Position)
  | unexpectedEnd (expected : Expected) (position : Position)
  /-- The second occurrence is the one at fault. -/
  | duplicateName (name : String) (scope : Scope) (first second : Position)
  | invalidLiteral (lexeme : String) (position : Position)
  /-- The position is that of the first brace past the limit. -/
  | nestingTooDeep (limit : Nat) (position : Position)
  /-- A token list goes on behind the end of the input. -/
  | tokensAfterEnd (found : String) (position : Position)
  deriving DecidableEq, Repr

namespace ParseError

def position : ParseError → Position
  | unexpectedToken _ _ p => p
  | unexpectedEnd _ p => p
  | duplicateName _ _ _ second => second
  | invalidLiteral _ p => p
  | nestingTooDeep _ p => p
  | tokensAfterEnd _ p => p

def message : ParseError → String
  | unexpectedToken expected found _ => "expected " ++ expected.text ++ ", found `" ++ found ++ "`"
  | unexpectedEnd expected _ => "expected " ++ expected.text ++ ", found end of input"
  | duplicateName name scope _ _ => "duplicate " ++ scope.name ++ " `" ++ name ++ "`"
  | invalidLiteral lexeme _ => "invalid numeric literal `" ++ lexeme ++ "`"
  | nestingTooDeep limit _ => "objects nested more than " ++ toString limit ++ " levels deep"
  | tokensAfterEnd found _ => "unexpected `" ++ found ++ "` after end of input"

/-- A duplicate name's note says where the name stood first. -/
def diagnostic (e : ParseError) : Diagnostic :=
  let d : Diagnostic := { message := e.message, position := e.position }
  match e with
  | duplicateName name _ first _ =>
    d.withNote ("`" ++ name ++ "` was first defined at " ++ first.text)
  | _ => d

end ParseError

end SchemaLang
