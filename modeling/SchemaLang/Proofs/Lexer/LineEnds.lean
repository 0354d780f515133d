import SchemaLang.Proofs.Lexer.Elsewhere
import SchemaLang.Proofs.Lexer.Faults

/-!
# Nothing reaches over the end of a line

A fault in front of the end of a text is the same fault in front of a line feed, and a
comment ends at either. So texts with a line feed between are lexed one after the other,
and the second one comes to be lexed if the first one has tokens.
-/
namespace SchemaLang

open Lexical

namespace Lexical

variable {e : LexError} {cs : List Char}

/-- The pieces in front of a text are cut as before if a line feed comes behind it. -/
theorem CutBefore.append_line {ps : List Piece} (h : CutBefore cs ps) (rest : List Char) :
    CutBefore (cs ++ '\n' :: rest) ps := by
  induction h with
  | nil => exact .nil
  | cons hl hg _ ih =>
    have hl' := hl.append_line rest
    have hg' := hg.append_line rest
    rw [List.append_assoc, List.append_assoc] at hl'
    rw [List.append_assoc] at hg'
    exact .cons hl' hg' ih

theorem BreaksOff.append_line (h : BreaksOff cs) (rest : List Char) :
    BreaksOff (cs ++ '\n' :: rest) := by
  cases h with
  | here hc => exact .here (forall_head?_append_line hc rfl)
  | backslash hc => exact .backslash (forall_head?_append_line hc rfl)

/-- What is wrong at the end of a text is wrong at the end of a line. -/
theorem Faulty.append_line (h : Faulty e cs) (rest : List Char) :
    Faulty e (cs ++ '\n' :: rest) := by
  cases h with
  | @unexpected c cs p halpha hdigit hblank hsymbol hcomment =>
    refine .unexpected halpha hdigit hblank hsymbol ?_
    rintro ⟨hslash, hhead⟩
    have hnext : ∀ d ∈ cs.head?, d ≠ '/' := by
      rintro d hd rfl
      exact hcomment ⟨hslash, hd⟩
    exact forall_head?_append_line hnext (by decide) '/' hhead rfl
  | badNumber hds hc =>
    rw [List.append_assoc, List.cons_append]
    exact .badNumber hds (forall_head?_append_line hc (by decide))
  | unterminated hb hc =>
    rw [List.cons_append, List.append_assoc]
    exact .unterminated hb (hc.append_line rest)

/-- Where something is wrong no gap stands. -/
theorem Faulty.clear (h : Faulty e cs) : Clear cs := by
  cases h with
  | @unexpected c cs p _ _ hblank _ hcomment =>
    have hb : isBlank c = false := by simpa [isBlank] using hblank
    simp only [Clear, splitLayout, hb, hcomment, if_false, Bool.false_eq_true]
  | badNumber hds _ =>
    obtain ⟨d, ds, rfl, hd⟩ := hds.exists_cons
    exact clear_of_isAlphanum (by simp [Char.isAlphanum, hd])
  | unterminated => exact clear_cons (by decide) (by decide)

/-- Behind whole characters and escapes the scanner finds no closing quote. -/
theorem scanString_of_breaksOff {body : List Char} (hb : StringBody body) (h : BreaksOff cs) :
    (scanString (body ++ cs)).outcome = .error .unterminated := by
  induction hb with
  | nil =>
    cases h with
    | @here cs hc =>
      cases cs with
      | nil => rfl
      | cons c cs =>
        obtain rfl : c = '\n' := hc c rfl
        rfl
    | @backslash cs hc =>
      cases cs with
      | nil => rfl
      | cons c cs =>
        obtain rfl : c = '\n' := hc c rfl
        rfl
  | plain hq hs hn _ ih => rwa [List.cons_append, scanString_plain hq hs hn]
  | escape hn _ ih => rwa [List.cons_append, List.cons_append, scanString_escape hn]

/-- The scanner finds what is wrong. -/
theorem Faulty.answer (h : Faulty e cs) : (scan cs).answer e.position = .error e := by
  cases h with
  | @unexpected c cs p halpha hdigit _ hsymbol _ =>
    have hscan : scan (c :: cs) = ⟨.error (.unexpected c), [], c :: cs⟩ := by
      simp only [List.mem_cons, List.not_mem_nil, or_false, not_or] at hsymbol
      simp [scan, punctuation, halpha, hdigit, hsymbol]
    rw [hscan]
    rfl
  | @badNumber ds cs p hds hc =>
    have hhead : cs.head?.any Char.isDigit = false := by
      rw [Option.any_eq_false]
      exact fun d hd => by simp [hc d hd]
    have hnumber : scanNumber (ds ++ '.' :: cs) = _ := scanNumber_dot hds.2
    rw [hhead, if_neg (by decide)] at hnumber
    obtain ⟨d, ds, rfl, hd⟩ := hds.exists_cons
    rw [List.cons_append] at hnumber
    rw [List.cons_append, scan_of_isDigit hd, hnumber]
    rfl
  | @unterminated body cs p hb hc =>
    have hscan : scan ('"' :: (body ++ cs)) = (scanString (body ++ cs)).prepend ['"'] := rfl
    rw [hscan, Scan.answer, Scan.prepend_outcome, scanString_of_breaksOff hb hc]
    rfl

end Lexical

/-- At a fault the lexer has no more tokens. -/
theorem Lexer.tokens_of_faulty {e : LexError} {cs : List Char} (h : Faulty e cs) :
    Lexer.tokens ⟨cs, e.position, false⟩ = .error e := by
  have hnext : (nextToken ⟨cs, e.position, false⟩).1 = .error e := by
    simp only [nextToken, show splitLayout false cs = ([], cs) from h.clear, Position.after_nil,
      h.answer]
  rw [tokens_eq rfl, hnext]

/-- A text that has no tokens has none with more lines behind it. -/
theorem tokenize_append_line_of_error {a : String} {e : LexError} (h : tokenize a = .error e)
    (b : String) : tokenize (a ++ "\n" ++ b) = .error e := by
  obtain ⟨gap, ps, rest, htext, hg, hps, hfaulty, hposition⟩ :=
    exists_cutBefore_of_tokenize_eq_error h
  have hg' := hg.append_line b.toList
  rw [List.append_assoc] at hg'
  have hall : (a ++ "\n" ++ b).toList = gap ++ (textOf ps ++ (rest ++ '\n' :: b.toList)) := by
    rw [String.toList_append, String.toList_append, htext]
    simp
  have htokens := Lexer.tokens_of_cutBefore .start hg' (hps.append_line b.toList)
  rw [← hposition, Lexer.tokens_of_faulty (hfaulty.append_line b.toList), ← hall] at htokens
  exact htokens

/-- Lexing is compositional at line ends. With a line feed between, the error of the first text
is that of both. Behind a first text with tokens the second one is lexed as if it stood alone,
as many lines further down as the first one takes, and the tokens of the first one, its end
left out, come in front. -/
theorem tokenize_lines (a b : String) :
    tokenize (a ++ "\n" ++ b) =
      match tokenize a with
      | .error e => .error e
      | .ok ts =>
        mapBoth (LexError.mapPositions (.down (a.toList.count '\n' + 1)))
          (fun us => ts.filter (·.kind ≠ .endOfInput) ++
            us.map (Token.mapPositions (.down (a.toList.count '\n' + 1))))
          (tokenize b) := by
  cases h : tokenize a with
  | error e => exact tokenize_append_line_of_error h b
  | ok ts =>
    obtain ⟨c, hc⟩ := Cutting.exists_cuts h
    obtain rfl := Except.ok.inj (hc.tokenize.symm.trans h)
    have hfirst : (placed (Position.start.after c.front) c.pieces ++
        [endAt (Position.start.after a.toList)]).filter (·.kind ≠ .endOfInput) =
          placed (Position.start.after c.front) c.pieces := by
      rw [List.filter_append, List.filter_eq_self.2 fun t ht => by
        simpa using kind_ne_of_mem_placed hc.pieces _ t ht]
      simp [endAt]
    rw [tokenize_append_line hc b]
    simp only [hfirst]

end SchemaLang
