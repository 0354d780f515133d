import SchemaLang.Proofs.Location
import SchemaLang.Proofs.Lexer.Stretches

/-!
# Lexing a text that begins elsewhere

Where a text begins changes the places in the answers, and nothing else. So the tokens
of two texts with a line feed between are those of the first one, and then those of the
second as many lines further down as the first one takes.
-/
namespace SchemaLang

open Lexical

/-- The same error, elsewhere. -/
def LexError.mapPositions (f : Position → Position) : LexError → LexError
  | unexpectedCharacter c p => unexpectedCharacter c (f p)
  | unterminatedString p => unterminatedString (f p)
  | invalidNumber lexeme p => invalidNumber lexeme (f p)

theorem Scan.answer_map (f : Position → Position) (s : Scan) (p : Position) :
    s.answer (f p) = mapBoth (LexError.mapPositions f) (Token.mapPositions f) (s.answer p) := by
  unfold Scan.answer
  split <;> rfl

namespace Lexer

/-- The same answer, in a text that begins at `base`. -/
def placeAnswer (base : Position) : Except LexError Token → Except LexError Token :=
  mapBoth (LexError.mapPositions base.translate) (Token.mapPositions base.translate)

/-- The same lexer, on a text that begins at `base`. -/
def within (base : Position) (l : Lexer) : Lexer :=
  { l with position := base.translate l.position }

variable (base : Position) {l : Lexer}

theorem nextToken_within (h : l.position.Counted) :
    (l.within base).nextToken = (placeAnswer base l.nextToken.1, l.nextToken.2.within base) := by
  simp only [nextToken, within, placeAnswer, Position.after_translate base h,
    Position.after_translate base (h.after _), Scan.answer_map]

theorem nextToken_counted (h : l.position.Counted) : l.nextToken.2.position.Counted :=
  (h.after _).after _

theorem isLast_placeAnswer (answer : Except LexError Token) :
    isLast (placeAnswer base answer) = isLast answer := by
  cases answer <;> rfl

/-- All answers move with the place where the text begins. -/
theorem drain_within (h : l.position.Counted) :
    (l.within base).drain = (l.drain.1.map (placeAnswer base), l.drain.2.within base) := by
  induction l using iterate_ind with
  | finished l hf =>
    rw [drain_of_finished hf, drain_of_finished (l := l.within base) hf]
    rfl
  | step l hf ih =>
    have hrest := ih (nextToken_counted h)
    rw [drain_eq hf, drain_eq (l := l.within base) hf, nextToken_within base h]
    simp only [within, isLast_placeAnswer, List.map_cons] at hrest ⊢
    rw [hrest]

theorem mapM_id_placeAnswer (answers : List (Except LexError Token)) :
    (answers.map (placeAnswer base)).mapM id =
      mapBoth (LexError.mapPositions base.translate) (List.map (Token.mapPositions base.translate))
        (answers.mapM id) := by
  induction answers with
  | nil => rfl
  | cons answer answers ih =>
    rw [List.map_cons, List.mapM_cons, List.mapM_cons, ih]
    cases answer with
    | error e => rfl
    | ok t => cases answers.mapM id <;> rfl

theorem tokens_within (h : l.position.Counted) :
    (l.within base).tokens =
      mapBoth (LexError.mapPositions base.translate) (List.map (Token.mapPositions base.translate))
        l.tokens := by
  rw [tokens, drain_within base h, mapM_id_placeAnswer]
  rfl

end Lexer

/-- The tokens of a text that begins at the front of a line. -/
theorem tokens_frontOfLine (lines : Nat) (text : String) :
    Lexer.tokens ⟨text.toList, ⟨lines + 1, 1⟩, false⟩ =
      mapBoth (LexError.mapPositions (.down lines)) (List.map (Token.mapPositions (.down lines)))
        (tokenize text) := by
  have h := Lexer.tokens_within ⟨lines + 1, 1⟩ (l := .ofText text.toList) Position.counted_start
  rwa [Lexer.within, Lexer.ofText, Position.translate_start, Position.translate_frontOfLine] at h

/-- What is behind a text with tokens and a line feed is lexed as if it stood alone, further
down. -/
theorem tokenize_append_line {c : Cutting} {a : String} (hc : c.Cuts a.toList) (b : String) :
    tokenize (a ++ "\n" ++ b) =
      mapBoth (LexError.mapPositions (.down (a.toList.count '\n' + 1)))
        (fun ts => placed (Position.start.after c.front) c.pieces ++
          ts.map (Token.mapPositions (.down (a.toList.count '\n' + 1))))
        (tokenize b) := by
  obtain ⟨gap, ps⟩ := c
  obtain ⟨htext, hg, hps⟩ := hc
  have hline : Gap ['\n'] b.toList := .blank (by decide) .nil
  have hall : (a ++ "\n" ++ b).toList = gap ++ (textOf ps ++ '\n' :: b.toList) := by
    rw [String.toList_append, String.toList_append, ← htext]
    simp [Cutting.text]
  have hfront : (Position.start.after (gap ++ textOf ps)).after ['\n'] =
      ⟨a.toList.count '\n' + 1 + 1, 1⟩ := by
    rw [← Position.after_append, Position.start_after_line]
    exact congrArg (fun cs => (⟨cs.count '\n' + 1 + 1, 1⟩ : Position)) htext
  -- the line feed is layout, and behind it a line begins
  have hrest : Lexer.tokens ⟨'\n' :: b.toList, Position.start.after (gap ++ textOf ps), false⟩ =
      Lexer.tokens ⟨b.toList, ⟨a.toList.count '\n' + 1 + 1, 1⟩, false⟩ := by
    have hnext := Lexer.nextToken_gap_append (Position.start.after (gap ++ textOf ps)) false hline
    rw [hfront] at hnext
    exact congrArg (List.mapM id) (Lexer.drain_congr rfl rfl hnext)
  have htokens := Lexer.tokens_of_cutBefore .start (hg.append_line b.toList)
    (hps.before_line b.toList)
  rw [hrest, tokens_frontOfLine, ← hall] at htokens
  refine htokens.trans ?_
  cases tokenize b <;> rfl

end SchemaLang
