import SchemaLang.Parser.Machine

/-!
# The parser

A parser holds the tokens that are still unread and the place where they end. Each
call of `parseProgram` runs the machine from between two modules, so a call after an
error goes on from the tokens that the error has left.
-/
namespace SchemaLang

/-- How many objects may be open at once. -/
def maxNesting : Nat := 128

/-- The unread tokens do not contain the end of the input. -/
structure Parser where
  unread : List Token
  endPosition : Position

namespace Parser

/-- Where a token list without an end of its own ends: right behind the last lexeme. -/
def impliedEnd (tokens : List Token) : Position :=
  match tokens.getLast? with
  | none => .start
  | some t => ⟨t.position.line, t.position.column + t.lexeme.length⟩

/-- A parser for a token list, which may end in the end of the input but not go on behind it. -/
def ofTokens (tokens : List Token) : Except ParseError Parser :=
  match tokens.dropWhile (·.kind ≠ .endOfInput) with
  | [] => .ok ⟨tokens, impliedEnd tokens⟩
  | [e] => .ok ⟨tokens.takeWhile (·.kind ≠ .endOfInput), e.position⟩
  | _ :: extra :: _ => .error (.tokensAfterEnd extra.lexeme extra.position)

def readWithin (limit : Option Nat) (p : Parser) : Reading :=
  State.between.run limit p.endPosition p.unread

/-- Reads on to the end or the next error. -/
def parseProgram (p : Parser) : Except ParseError Program × Parser :=
  let r := p.readWithin (some maxNesting)
  (r.result, { p with unread := r.unread })

end Parser

/-- The program of a token list, with at most `limit` objects open at once. -/
def parseWithin (limit : Option Nat) (tokens : List Token) : Except ParseError Program := do
  ((← Parser.ofTokens tokens).readWithin limit).result

/-- The program of a token list. -/
def parse (tokens : List Token) : Except ParseError Program := parseWithin (some maxNesting) tokens

end SchemaLang
