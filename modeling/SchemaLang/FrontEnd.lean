import SchemaLang.Lexer.Basic
import SchemaLang.Parser.Basic

/-!
# From source text to program

The lexer and the parser together; either may stop at an error of its own kind.
-/
namespace SchemaLang

inductive SourceError where
  | lexical (e : LexError)
  | syntactic (e : ParseError)
  deriving DecidableEq, Repr

def SourceError.diagnostic : SourceError → Diagnostic
  | lexical e => e.diagnostic
  | syntactic e => e.diagnostic

/-- The program that a source text denotes. -/
def parseSource (source : String) : Except SourceError Program :=
  match tokenize source with
  | .error e => .error (.lexical e)
  | .ok tokens => (parse tokens).mapError .syntactic

end SchemaLang
