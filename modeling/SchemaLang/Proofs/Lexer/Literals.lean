import SchemaLang.Proofs.Lexer.Tokens
import SchemaLang.Text.Quoted

/-!
# String literals part by part

What stands between the quotes of a string literal is written in parts: characters that
denote themselves, escapes with a meaning, and backslashes in front of a character with
which they make no escape. The scanner and `unescape` both take it part by part, so the
token of a literal denotes what its parts denote.
-/
namespace SchemaLang.Quoted

open Lexical

/-- The escapes that have a meaning. -/
inductive Escape where
  | lineFeed
  | tab
  | carriageReturn
  | null
  | backslash
  | quote
  deriving DecidableEq, Repr

namespace Escape

/-- The character behind the backslash. -/
def letter : Escape → Char
  | lineFeed => 'n'
  | tab => 't'
  | carriageReturn => 'r'
  | null => '0'
  | backslash => '\\'
  | quote => '"'

def meaning : Escape → Char
  | lineFeed => '\n'
  | tab => '\t'
  | carriageReturn => '\r'
  | null => '\x00'
  | backslash => '\\'
  | quote => '"'

end Escape

/-- A part of what stands between the quotes. A backslash in front of a character that makes no
escape with it is kept. -/
inductive Part where
  | plain (c : Char) (h : c ∉ ['"', '\\', '\n'])
  | escape (e : Escape)
  | kept (c : Char) (h : c ∉ ['n', 't', 'r', '0', '\\', '"', '\n'])

namespace Part

def written : Part → List Char
  | plain c _ => [c]
  | escape e => ['\\', e.letter]
  | kept c _ => ['\\', c]

def denoted : Part → List Char
  | plain c _ => [c]
  | escape e => [e.meaning]
  | kept c _ => ['\\', c]

/-- A part for the character, an escape only where there is no other way. -/
def ofChar (c : Char) : Part :=
  if hq : c = '"' then .escape .quote
  else if hb : c = '\\' then .escape .backslash
  else if hn : c = '\n' then .escape .lineFeed
  else .plain c (by simp [hq, hb, hn])

theorem denoted_ofChar (c : Char) : (ofChar c).denoted = [c] := by
  unfold ofChar
  split
  · next h => exact congrArg (fun d => [d]) h.symm
  · split
    · next h => exact congrArg (fun d => [d]) h.symm
    · split
      · next h => exact congrArg (fun d => [d]) h.symm
      · rfl

end Part

def written (parts : List Part) : List Char := parts.flatMap Part.written

def denoted (parts : List Part) : List Char := parts.flatMap Part.denoted

/-- The parts between quotes. -/
def literal (parts : List Part) : List Char := '"' :: (written parts ++ ['"'])

theorem denoted_map_ofChar (cs : List Char) : denoted (cs.map .ofChar) = cs := by
  induction cs with
  | nil => rfl
  | cons c cs ih =>
    rw [denoted] at ih ⊢
    rw [List.map_cons, List.flatMap_cons, ih, Part.denoted_ofChar, List.singleton_append]

/-- The scanner takes a part as a whole. -/
theorem body_append (part : Part) {cs : List Char} (h : StringBody cs) :
    StringBody (part.written ++ cs) := by
  cases part with
  | plain c hc =>
    simp only [List.mem_cons, List.not_mem_nil, or_false, not_or] at hc
    exact .plain hc.1 hc.2.1 hc.2.2 h
  | escape e =>
    have hletter : e.letter ≠ '\n' := by cases e <;> decide
    exact .escape hletter h
  | kept c hc =>
    refine .escape ?_ h
    rintro rfl
    exact hc (by decide)

theorem body_written (parts : List Part) : StringBody (written parts) := by
  induction parts with
  | nil => exact .nil
  | cons part parts ih => exact body_append part ih

theorem unescape_plain {c : Char} (h : c ≠ '\\') (cs : List Char) :
    unescape (c :: cs) = c :: unescape cs := by
  rw [unescape]
  rintro d ds rfl
  exact absurd rfl h

theorem escape_of_not_mem {c : Char} (h : c ∉ ['n', 't', 'r', '0', '\\', '"', '\n']) :
    escape c = ['\\', c] := by
  unfold escape
  split
  case h_7 => rfl
  all_goals exact absurd (by decide) h

/-- What a part denotes is read off it, and the rest is read on its own. -/
theorem unescape_append (part : Part) (cs : List Char) :
    unescape (part.written ++ cs) = part.denoted ++ unescape cs := by
  cases part with
  | plain c hc =>
    refine unescape_plain ?_ cs
    rintro rfl
    exact hc (by decide)
  | escape e => cases e <;> rfl
  | kept c hc =>
    change escape c ++ unescape cs = _
    rw [escape_of_not_mem hc]
    rfl

theorem unescape_written (parts : List Part) : unescape (written parts) = denoted parts := by
  induction parts with
  | nil => rfl
  | cons part parts ih => exact (unescape_append part _).trans (congrArg (part.denoted ++ ·) ih)

theorem inside?_quotes (body : List Char) : inside? ('"' :: (body ++ ['"'])) = some body := by
  simp [inside?]

theorem stringValue?_literal (parts : List Part) (p : Position) :
    Token.stringValue? ⟨.string, String.ofList (literal parts), p⟩ =
      some (String.ofList (denoted parts)) := by
  simp only [Token.stringValue?, if_true, String.toList_ofList, literal, inside?_quotes,
    Option.map_some, unescape_written]

/-- In front of a literal the lexer takes all of it and nothing else, whatever comes behind. -/
theorem nextToken_literal (parts : List Part) (rest : List Char) (p : Position)
    (finished : Bool) :
    Lexer.nextToken ⟨literal parts ++ rest, p, finished⟩ =
      (.ok ⟨.string, String.ofList (literal parts), p⟩,
        ⟨rest, p.after (literal parts), finished⟩) := by
  have hlexeme : Lexeme .string (literal parts) rest := .string (body_written parts)
  exact nextToken_of_piece (q := ⟨.string, literal parts, []⟩) .nil hlexeme

/-- However a text is written as a string literal, the literal is read back as the text. In
front of the literal the lexer gives one token, the lexeme of which is the literal, and stops
right behind it; the value of the token is what the parts of the literal denote. And every text
has a literal. -/
theorem literal_read_back :
    (∀ (parts : List Part) (rest : List Char) (p : Position),
      let token : Token := ⟨.string, String.ofList (literal parts), p⟩
      let behind := p.after (literal parts)
      (∀ finished, Lexer.nextToken ⟨literal parts ++ rest, p, finished⟩ =
        (.ok token, ⟨rest, behind, finished⟩)) ∧
      Lexer.next ⟨literal parts ++ rest, p, false⟩ = (some (.ok token), ⟨rest, behind, false⟩) ∧
      token.stringValue? = some (String.ofList (denoted parts))) ∧
    ∀ text : String, ∃ parts, String.ofList (denoted parts) = text := by
  refine ⟨fun parts rest p => ⟨nextToken_literal parts rest p, ?_, ?_⟩, fun text => ?_⟩
  · rw [Lexer.next_eq rfl, nextToken_literal]
    rfl
  · exact stringValue?_literal parts p
  · refine ⟨text.toList.map .ofChar, ?_⟩
    rw [denoted_map_ofChar, String.ofList_toList]

end SchemaLang.Quoted
