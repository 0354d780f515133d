import SchemaLang.Lexer.Scan
import SchemaLang.Diagnostic

/-!
# The lexer

A lexer is what is left of a text together with the place where that begins.
`nextToken` can be called for ever; `next` stops after the end of the input or
the first error. `tokenize` collects what `next` yields from a whole text.
-/
namespace SchemaLang

inductive LexError where
  | unexpectedCharacter (character : Char) (position : Position)
  /-- The position is that of the opening quote. -/
  | unterminatedString (position : Position)
  | invalidNumber (lexeme : String) (position : Position)
  deriving DecidableEq, Repr

namespace LexError

def position : LexError → Position
  | unexpectedCharacter _ p => p
  | unterminatedString p => p
  | invalidNumber _ p => p

def message : LexError → String
  | unexpectedCharacter c _ => "unexpected character '" ++ c.toString ++ "'"
  | unterminatedString _ => "unterminated string literal"
  | invalidNumber lexeme _ =>
    "invalid number `" ++ lexeme ++ "`: expected digits after the decimal point"

def diagnostic (e : LexError) : Diagnostic where
  message := e.message
  position := e.position

end LexError

/-- What the lexer answers where `s` is found at `p`. -/
def Scan.answer (s : Scan) (p : Position) : Except LexError Token :=
  match s.outcome with
  | .ok kind => .ok ⟨kind, String.ofList s.taken, p⟩
  | .error (.unexpected c) => .error (.unexpectedCharacter c p)
  | .error .unterminated => .error (.unterminatedString p)
  | .error .badNumber => .error (.invalidNumber (String.ofList s.taken) p)

structure Lexer where
  unread : List Char
  position : Position
  finished : Bool := false
  deriving DecidableEq, Repr

namespace Lexer

/-- A lexer at the front of a text. -/
def ofText (text : List Char) : Lexer where
  unread := text
  position := .start

/-- The next token or error, whatever came before. The characters of an ill-formed number
or string are taken, an unexpected character is not. -/
def nextToken (l : Lexer) : Except LexError Token × Lexer :=
  let (layout, text) := splitLayout false l.unread
  let s := scan text
  let p := l.position.after layout
  (s.answer p, { l with unread := s.rest, position := p.after s.taken })

/-- Nothing comes after the end of the input or an error. -/
def isLast : Except LexError Token → Bool
  | .ok t => t.kind = .endOfInput
  | .error _ => true

/-- The next token or error, unless the last one has been given. -/
def next (l : Lexer) : Option (Except LexError Token) × Lexer :=
  if l.finished then (none, l)
  else
    let (answer, l') := l.nextToken
    (some answer, { l' with finished := isLast answer })

@[simp] theorem nextToken_finished (l : Lexer) : l.nextToken.2.finished = l.finished := rfl

theorem next_of_finished {l : Lexer} (h : l.finished = true) : l.next = (none, l) := by
  simp [next, h]

theorem length_nextToken_lt {l : Lexer} (h : isLast l.nextToken.1 = false) :
    l.nextToken.2.unread.length < l.unread.length := by
  refine Nat.lt_of_lt_of_le ?_ (length_splitLayout_le false l.unread)
  simp only [nextToken, Scan.answer] at h ⊢
  split at h
  next kind hkind =>
    exact length_scan_rest_lt hkind (by simpa [isLast] using h)
  all_goals simp [isLast] at h

/-- How many answers `next` can still give, at most. -/
def remaining (l : Lexer) : Nat := if l.finished then 0 else l.unread.length + 1

theorem remaining_next_lt {l : Lexer} {a : Except LexError Token} (h : l.next.1 = some a) :
    l.next.2.remaining < l.remaining := by
  unfold next at h ⊢
  split at h
  · simp at h
  next hf =>
    simp only [hf, remaining]
    cases hlast : isLast l.nextToken.1
    · have := length_nextToken_lt hlast
      simp [this]
    · simp

/-- All that `next` still gives. -/
def drain (l : Lexer) : List (Except LexError Token) × Lexer :=
  match _h : l.next.1 with
  | none => ([], l)
  | some answer =>
    let (answers, l') := drain l.next.2
    (answer :: answers, l')
termination_by l.remaining
decreasing_by exact remaining_next_lt _h

end Lexer

/-- The tokens of a text up to and with the end of the input, or the first error. -/
def tokenize (source : String) : Except LexError (List Token) :=
  (Lexer.ofText source.toList).drain.1.mapM id

end SchemaLang
