import SchemaLang.Token

/-!
# String literals

A string literal stands between two quotes. Within it a backslash begins an
escape of two characters; an escape that has no meaning denotes itself,
backslash included.
-/
namespace SchemaLang.Quoted

/-- What a backslash followed by `c` denotes. -/
def escape : Char → List Char
  | 'n' => ['\n']
  | 't' => ['\t']
  | 'r' => ['\r']
  | '0' => ['\x00']
  | '\\' => ['\\']
  | '"' => ['"']
  | c => ['\\', c]

/-- The text that the inside of a literal denotes. A backslash at the very end is kept. -/
def unescape : List Char → List Char
  | [] => []
  | '\\' :: c :: cs => escape c ++ unescape cs
  | c :: cs => c :: unescape cs

/-- What stands between the quotes, if a quote opens and another one closes the text. -/
def inside? : List Char → Option (List Char)
  | '"' :: cs => if cs.getLast? = some '"' then some cs.dropLast else none
  | _ => none

end SchemaLang.Quoted

namespace SchemaLang.Token

/-- The text that a string literal denotes; `none` for other tokens and without both quotes. -/
def stringValue? (t : Token) : Option String :=
  if t.kind = .string then
    (Quoted.inside? t.lexeme.toList).map fun cs => String.ofList (Quoted.unescape cs)
  else none

end SchemaLang.Token
