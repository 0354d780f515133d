import SchemaLang.Lexer.Scan

/-!
# The lexical grammar

`Gap` says what blanks and comments are and `Lexeme` what a token of each class
looks like. Both see the text that follows, since a comment has to reach the end
of its line and a lexeme must not be shorter than it could be. A text is cut into
a first gap and pieces, each a lexeme with the gap behind it.
-/
namespace SchemaLang.Lexical

/-- Blanks and comments in front of `rest`. A comment goes on up to a line feed or to the end. -/
inductive Gap : List Char → List Char → Prop where
  | nil {rest : List Char} : Gap [] rest
  | blank {c : Char} {cs rest : List Char} : isBlank c → Gap cs rest → Gap (c :: cs) rest
  | comment {body cs rest : List Char} :
      '\n' ∉ body → (∀ c ∈ (cs ++ rest).head?, c = '\n') → Gap cs rest →
      Gap ('/' :: '/' :: (body ++ cs)) rest

/-- A letter, and then letters, digits and underscores. -/
inductive IsWord : List Char → Prop where
  | mk {c : Char} {cs : List Char} : c.isAlpha → (∀ d ∈ cs, isWordChar d) → IsWord (c :: cs)

theorem IsWord.exists_cons {w : List Char} (h : IsWord w) : ∃ c cs, w = c :: cs ∧ c.isAlpha := by
  cases h with
  | mk hc _ => exact ⟨_, _, rfl, hc⟩

/-- Reserved words are told apart by exact match. -/
inductive WordClass : String → TokenKind → Prop where
  | keyword {word : String} : word ∈ keywords → WordClass word .keyword
  | typeName {word : String} : word ∈ typeNames → WordClass word .typeName
  | boolean {word : String} : word ∈ ["true", "false"] → WordClass word .boolean
  | identifier {word : String} :
      word ∉ keywords → word ∉ typeNames → word ∉ ["true", "false"] → WordClass word .identifier

/-- One digit at least, and nothing else. -/
def IsDigits (ds : List Char) : Prop := ds ≠ [] ∧ ∀ d ∈ ds, d.isDigit

theorem IsDigits.exists_cons {ds : List Char} (h : IsDigits ds) :
    ∃ d tail, ds = d :: tail ∧ d.isDigit := by
  obtain ⟨hne, hd⟩ := h
  obtain ⟨d, tail, rfl⟩ := List.exists_cons_of_ne_nil hne
  exact ⟨d, tail, rfl, hd d (by simp)⟩

/-- The inside of a string literal: a backslash takes the next character with it. -/
inductive StringBody : List Char → Prop where
  | nil : StringBody []
  | plain {c : Char} {cs : List Char} :
      c ≠ '"' → c ≠ '\\' → c ≠ '\n' → StringBody cs → StringBody (c :: cs)
  | escape {c : Char} {cs : List Char} : c ≠ '\n' → StringBody cs → StringBody ('\\' :: c :: cs)

/-- A lexeme of the class as it stands before `rest`, as long as it can be there. -/
inductive Lexeme : TokenKind → List Char → List Char → Prop where
  | word {kind : TokenKind} {w rest : List Char} :
      IsWord w → WordClass (String.ofList w) kind → (∀ c ∈ rest.head?, isWordChar c = false) →
      Lexeme kind w rest
  | integer {ds rest : List Char} :
      IsDigits ds → (∀ c ∈ rest.head?, c.isDigit = false ∧ c ≠ '.') → Lexeme .integer ds rest
  | float {ds fs rest : List Char} :
      IsDigits ds → IsDigits fs → (∀ c ∈ rest.head?, c.isDigit = false) →
      Lexeme .float (ds ++ '.' :: fs) rest
  | string {body rest : List Char} :
      StringBody body → Lexeme .string ('"' :: (body ++ ['"'])) rest
  | arrow {rest : List Char} : Lexeme .symbol ['=', '>'] rest
  | equals {rest : List Char} : (∀ c ∈ rest.head?, c ≠ '>') → Lexeme .symbol ['='] rest
  | punctuation {c : Char} {rest : List Char} :
      c ∈ ['{', '}', '(', ')', ':', '.', ',', '-'] → Lexeme .symbol [c] rest

section Inversion

variable {l rest : List Char}

theorem word_of_identifier (h : Lexeme .identifier l rest) :
    IsWord l ∧ WordClass (String.ofList l) .identifier := by
  cases h with
  | word hw hk _ => exact ⟨hw, hk⟩

theorem head?_of_identifier (h : Lexeme .identifier l rest) :
    ∀ c ∈ rest.head?, isWordChar c = false := by
  cases h with
  | word _ _ hr => exact hr

theorem mem_typeNames_of_typeName (h : Lexeme .typeName l rest) : String.ofList l ∈ typeNames := by
  cases h with
  | word _ hk _ =>
    cases hk with
    | typeName hw => exact hw

theorem mem_booleans_of_boolean (h : Lexeme .boolean l rest) :
    String.ofList l ∈ ["true", "false"] := by
  cases h with
  | word _ hk _ =>
    cases hk with
    | boolean hw => exact hw

theorem isDigits_of_integer (h : Lexeme .integer l rest) : IsDigits l := by
  cases h with
  | word _ hk _ => cases hk
  | integer hd _ => exact hd

theorem fraction_of_float (h : Lexeme .float l rest) :
    ∃ ds fs, l = ds ++ '.' :: fs ∧ IsDigits ds ∧ IsDigits fs := by
  cases h with
  | word _ hk _ => cases hk
  | float hd hf _ => exact ⟨_, _, rfl, hd, hf⟩

theorem body_of_string (h : Lexeme .string l rest) :
    ∃ body, l = '"' :: (body ++ ['"']) ∧ StringBody body := by
  cases h with
  | word _ hk _ => cases hk
  | string hb => exact ⟨_, rfl, hb⟩

end Inversion

/-- A lexeme, its class and the gap behind it. -/
structure Piece where
  kind : TokenKind
  lexeme : List Char
  gap : List Char
  deriving DecidableEq, Repr

/-- Pieces put together in order. -/
def textOf (ps : List Piece) : List Char := ps.flatMap fun p => p.lexeme ++ p.gap

@[simp] theorem textOf_nil : textOf [] = [] := rfl

@[simp] theorem textOf_cons (p : Piece) (ps : List Piece) :
    textOf (p :: ps) = p.lexeme ++ (p.gap ++ textOf ps) := by
  simp [textOf]

/-- All lexemes and gaps are what they should be where they stand. -/
inductive WellCut : List Piece → Prop where
  | nil : WellCut []
  | cons {p : Piece} {ps : List Piece} :
      Lexeme p.kind p.lexeme (p.gap ++ textOf ps) → Gap p.gap (textOf ps) → WellCut ps →
      WellCut (p :: ps)

/-- A text in parts: the gap in front and the pieces. -/
structure Cutting where
  front : List Char
  pieces : List Piece
  deriving DecidableEq, Repr

namespace Cutting

def text (c : Cutting) : List Char := c.front ++ textOf c.pieces

/-- Classes and lexemes in order. -/
def lexemes (c : Cutting) : List (TokenKind × String) :=
  c.pieces.map fun p => (p.kind, String.ofList p.lexeme)

/-- The parts make up the text, and each of them is what it should be. -/
structure Cuts (c : Cutting) (text : List Char) : Prop where
  text_eq : c.text = text
  front : Gap c.front (textOf c.pieces)
  pieces : WellCut c.pieces

end Cutting

end SchemaLang.Lexical
