import SchemaLang.Token

/-!
# The front of a text

`splitLayout` takes blanks and comments off the front of a text and `scan` the
lexeme after them. Neither looks at positions, and neither loses a character:
`splitLayout_append` and `scan_append` put the parts together again. All
character classes here are ASCII.
-/
namespace SchemaLang

/-- Why no token stands at the front of a text. -/
inductive Fault where
  | unexpected (c : Char)
  | unterminated
  | badNumber
  deriving DecidableEq, Repr

/-- The front of a text: the class of its lexeme, the characters taken and those left. -/
structure Scan where
  outcome : Except Fault TokenKind
  taken : List Char
  rest : List Char

namespace Scan

/-- The same front with `cs` before it. -/
def prepend (cs : List Char) (s : Scan) : Scan := { s with taken := cs ++ s.taken }

@[simp] theorem prepend_outcome (cs : List Char) (s : Scan) :
    (s.prepend cs).outcome = s.outcome := rfl

@[simp] theorem prepend_taken (cs : List Char) (s : Scan) :
    (s.prepend cs).taken = cs ++ s.taken := rfl

@[simp] theorem prepend_rest (cs : List Char) (s : Scan) : (s.prepend cs).rest = s.rest := rfl

end Scan

def isBlank (c : Char) : Bool := c = ' ' ∨ c = '\t' ∨ c = '\r' ∨ c = '\n'

def isWordChar (c : Char) : Bool := c.isAlphanum ∨ c = '_'

/-- The symbols of one character, `=` aside. -/
def punctuation : List Char := ['{', '}', '(', ')', ':', '.', ',', '-']

/-- Splits off blanks and comments. A comment runs from `//` up to the next line feed;
`inComment` says that the text begins within one. -/
def splitLayout (inComment : Bool) : List Char → List Char × List Char
  | [] => ([], [])
  | c :: cs =>
    if inComment then
      let (layout, text) := splitLayout (c ≠ '\n') cs
      (c :: layout, text)
    else if isBlank c then
      let (layout, text) := splitLayout false cs
      (c :: layout, text)
    else if c = '/' ∧ cs.head? = some '/' then
      let (layout, text) := splitLayout true cs
      (c :: layout, text)
    else ([], c :: cs)

theorem splitLayout_append (inComment : Bool) (cs : List Char) :
    (splitLayout inComment cs).1 ++ (splitLayout inComment cs).2 = cs := by
  fun_induction splitLayout inComment cs <;> simp_all

/-- A word: reserved words have classes of their own. -/
def scanWord (cs : List Char) : Scan :=
  let word := cs.takeWhile isWordChar
  ⟨.ok (.ofWord (String.ofList word)), word, cs.dropWhile isWordChar⟩

/-- Digits, with a fraction if a dot follows; the dot then needs a digit behind it. -/
def scanNumber (cs : List Char) : Scan :=
  let whole := cs.takeWhile Char.isDigit
  match cs.dropWhile Char.isDigit with
  | '.' :: rest =>
    if rest.head?.any Char.isDigit then
      ⟨.ok .float, whole ++ '.' :: rest.takeWhile Char.isDigit, rest.dropWhile Char.isDigit⟩
    else ⟨.error .badNumber, whole ++ ['.'], rest⟩
  | rest => ⟨.ok .integer, whole, rest⟩

/-- A string literal from behind its opening quote on. A backslash takes the next
character with it; a line feed ends the attempt and is left. -/
def scanString : List Char → Scan
  | [] => ⟨.error .unterminated, [], []⟩
  | '"' :: cs => ⟨.ok .string, ['"'], cs⟩
  | '\n' :: cs => ⟨.error .unterminated, [], '\n' :: cs⟩
  | '\\' :: '\n' :: cs => ⟨.error .unterminated, ['\\'], '\n' :: cs⟩
  | '\\' :: c :: cs => (scanString cs).prepend ['\\', c]
  | c :: cs => (scanString cs).prepend [c]

/-- What stands at the very front of a text. A character that begins no token is not taken. -/
def scan : List Char → Scan
  | [] => ⟨.ok .endOfInput, [], []⟩
  | c :: cs =>
    if c.isAlpha then scanWord (c :: cs)
    else if c.isDigit then scanNumber (c :: cs)
    else if c = '"' then (scanString cs).prepend [c]
    else if c = '=' then
      match cs with
      | '>' :: rest => ⟨.ok .symbol, [c, '>'], rest⟩
      | rest => ⟨.ok .symbol, [c], rest⟩
    else if c ∈ punctuation then ⟨.ok .symbol, [c], cs⟩
    else ⟨.error (.unexpected c), [], c :: cs⟩

theorem scanWord_append (cs : List Char) : (scanWord cs).taken ++ (scanWord cs).rest = cs :=
  List.takeWhile_append_dropWhile

theorem scanNumber_append (cs : List Char) :
    (scanNumber cs).taken ++ (scanNumber cs).rest = cs := by
  have whole := List.takeWhile_append_dropWhile (p := Char.isDigit) (l := cs)
  unfold scanNumber
  split
  next rest h =>
    rw [h] at whole
    have fraction := List.takeWhile_append_dropWhile (p := Char.isDigit) (l := rest)
    split
    · simpa [fraction] using whole
    · simpa using whole
  next => exact whole

theorem scanString_append (cs : List Char) :
    (scanString cs).taken ++ (scanString cs).rest = cs := by
  fun_induction scanString cs <;> simp_all

theorem scan_append (cs : List Char) : (scan cs).taken ++ (scan cs).rest = cs := by
  fun_cases scan cs <;> simp_all [scanWord_append, scanNumber_append, scanString_append]

/-- A lexeme has at least one character. -/
theorem scan_taken_ne_nil {cs : List Char} {kind : TokenKind} (h : (scan cs).outcome = .ok kind)
    (hkind : kind ≠ .endOfInput) : (scan cs).taken ≠ [] := by
  revert h
  fun_cases scan cs <;> intro h
  · exact absurd (Except.ok.inj h).symm hkind
  next c cs hc => simp [scanWord, isWordChar, Char.isAlphanum, hc]
  next c cs _ hc =>
    unfold scanNumber
    split
    · split <;> simp
    · simp [hc]
  all_goals simp_all

theorem length_scan_rest_lt {cs : List Char} {kind : TokenKind} (h : (scan cs).outcome = .ok kind)
    (hkind : kind ≠ .endOfInput) : (scan cs).rest.length < cs.length := by
  have total := congrArg List.length (scan_append cs)
  have taken := List.length_pos_iff.2 (scan_taken_ne_nil h hkind)
  rw [List.length_append] at total
  omega

theorem length_splitLayout_le (inComment : Bool) (cs : List Char) :
    (splitLayout inComment cs).2.length ≤ cs.length := by
  have total := congrArg List.length (splitLayout_append inComment cs)
  rw [List.length_append] at total
  omega

end SchemaLang
