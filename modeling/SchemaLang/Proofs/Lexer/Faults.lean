import SchemaLang.Proofs.Lexer.Stretches

/-!
# Lexical errors

`Faulty` says what each lexical error finds at the front of a text. An error is about
the first such place: the text before it has tokens, the same as are given before the
error, and ends where the error is placed.
-/
namespace SchemaLang

open Lexical

namespace Lexical

/-- What stands where the inside of a string literal breaks off: the end or a line feed,
perhaps with one more backslash before. -/
inductive BreaksOff : List Char → Prop where
  | here {cs : List Char} : (∀ c ∈ cs.head?, c = '\n') → BreaksOff cs
  | backslash {cs : List Char} : (∀ c ∈ cs.head?, c = '\n') → BreaksOff ('\\' :: cs)

/-- The error is right about the front of the text, wherever it places it. -/
inductive Faulty : LexError → List Char → Prop where
  | unexpected {c : Char} {cs : List Char} {p : Position} :
      c.isAlpha = false → c.isDigit = false → c ∉ [' ', '\t', '\r', '\n'] →
      c ∉ ['"', '{', '}', '(', ')', ':', '.', ',', '-', '='] →
      ¬(c = '/' ∧ cs.head? = some '/') → Faulty (.unexpectedCharacter c p) (c :: cs)
  | badNumber {ds cs : List Char} {p : Position} :
      IsDigits ds → (∀ c ∈ cs.head?, c.isDigit = false) →
      Faulty (.invalidNumber (String.ofList (ds ++ ['.'])) p) (ds ++ '.' :: cs)
  | unterminated {body cs : List Char} {p : Position} :
      StringBody body → BreaksOff cs → Faulty (.unterminatedString p) ('"' :: (body ++ cs))

theorem Faulty.ne_nil {e : LexError} {cs : List Char} (h : Faulty e cs) : cs ≠ [] := by
  cases h with
  | unexpected => simp
  | badNumber => simp
  | unterminated => simp

/-- Neither a blank nor a comment stands where no gap does. -/
theorem Clear.not_layout {c : Char} {cs : List Char} (h : Clear (c :: cs)) :
    isBlank c = false ∧ ¬(c = '/' ∧ cs.head? = some '/') := by
  have hfront := congrArg Prod.fst h
  constructor
  · cases hb : isBlank c with
    | false => rfl
    | true => simp [splitLayout, hb] at hfront
  · rintro ⟨rfl, hcs⟩
    have hb : isBlank '/' = false := by decide
    simp [splitLayout, hb, hcs] at hfront

section Scanners

/-- Digits and a dot without digits behind it are all that is wrong with a number. -/
theorem badNumber_of_scanNumber {c : Char} {cs : List Char} {f : Fault} (hc : c.isDigit)
    (h : (scanNumber (c :: cs)).outcome = .error f) :
    f = .badNumber ∧ ∃ ds tail, c :: cs = ds ++ '.' :: tail ∧ IsDigits ds ∧
      (∀ d ∈ tail.head?, d.isDigit = false) ∧ (scanNumber (c :: cs)).taken = ds ++ ['.'] := by
  have hwhole : IsDigits ((c :: cs).takeWhile Char.isDigit) :=
    ⟨by simp [hc], fun d hd => List.mem_takeWhile_imp hd⟩
  have htext := List.takeWhile_append_dropWhile (p := Char.isDigit) (l := c :: cs)
  unfold scanNumber at h ⊢
  split at h
  · next tail ht =>
    split at h
    · simp at h
    · next hf =>
      rw [ht] at htext
      refine ⟨(Except.error.inj h).symm, _, tail, htext.symm, hwhole, ?_, ?_⟩
      · intro d hd
        have hsome : tail.head? = some d := hd
        simpa [hsome] using hf
      · simp only [hf, if_false, Bool.false_eq_true]
  · simp at h

/-- A string literal that is not closed breaks off behind whole characters and escapes. -/
theorem breaksOff_of_scanString {cs : List Char} {f : Fault}
    (h : (scanString cs).outcome = .error f) :
    f = .unterminated ∧ ∃ body tail, cs = body ++ tail ∧ StringBody body ∧ BreaksOff tail := by
  fun_induction scanString cs with
  | case1 => exact ⟨(Except.error.inj h).symm, [], [], rfl, .nil, .here (by simp)⟩
  | case2 => simp at h
  | case3 cs => exact ⟨(Except.error.inj h).symm, [], _, rfl, .nil, .here (by simp)⟩
  | case4 cs => exact ⟨(Except.error.inj h).symm, [], _, rfl, .nil, .backslash (by simp)⟩
  | case5 c cs hn ih =>
    obtain ⟨hf, body, tail, rfl, hb, ht⟩ := ih h
    exact ⟨hf, '\\' :: c :: body, tail, rfl, .escape hn hb, ht⟩
  | case6 c cs hq hn _ hesc ih =>
    obtain ⟨hf, body, tail, rfl, hb, ht⟩ := ih h
    by_cases hc : c = '\\'
    · -- no character follows a backslash here, so nothing has been read behind it
      have hnil : body ++ tail = [] := by
        cases hall : body ++ tail with
        | nil => rfl
        | cons d ds => exact (hesc d ds hc hall).elim
      rw [hc, hnil]
      exact ⟨hf, [], _, rfl, .nil, .backslash (by simp)⟩
    · exact ⟨hf, c :: body, tail, rfl, .plain hq hc hn hb, ht⟩

/-- What is wrong with the front of a text is what the error says. -/
theorem faulty_of_scan {cs : List Char} {f : Fault} (p : Position) (hclear : Clear cs)
    (h : (scan cs).outcome = .error f) :
    ∃ e, (scan cs).answer p = .error e ∧ e.position = p ∧ Faulty e cs := by
  revert h
  fun_cases scan cs with
  | case1 => simp
  | case2 => simp [scanWord]
  | case3 c cs _ hc =>
    intro h
    obtain ⟨rfl, ds, tail, htext, hds, htail, htaken⟩ := badNumber_of_scanNumber hc h
    refine ⟨.invalidNumber (String.ofList (ds ++ ['.'])) p, ?_, rfl, ?_⟩
    · simp only [Scan.answer, h, htaken]
    · rw [htext]
      exact .badNumber hds htail
  | case4 cs =>
    intro h
    obtain ⟨rfl, body, tail, rfl, hb, ht⟩ := breaksOff_of_scanString h
    refine ⟨.unterminatedString p, ?_, rfl, .unterminated hb ht⟩
    simp only [Scan.answer, h]
  | case5 => simp
  | case6 => simp
  | case7 => simp
  | case8 c cs halpha hdigit hquote hequals hp =>
    intro h
    obtain ⟨hblank, hcomment⟩ := hclear.not_layout
    have hsymbols : c ∉ ['"', '{', '}', '(', ')', ':', '.', ',', '-', '='] := by
      simp_all [punctuation]
    have hblanks : c ∉ [' ', '\t', '\r', '\n'] := by
      simpa [isBlank] using hblank
    exact ⟨.unexpectedCharacter c p, rfl, rfl, .unexpected (by simpa using halpha)
      (by simpa using hdigit) hblanks hsymbols hcomment⟩

end Scanners

end Lexical

namespace Lexer

/-- At a fault the lexer answers with the error, and that is its last answer. -/
theorem drain_of_fault {cs : List Char} {f : Fault} (p : Position) (hclear : Clear cs)
    (h : (scan cs).outcome = .error f) :
    ∃ e, (drain ⟨cs, p, false⟩).1 = [.error e] ∧ e.position = p ∧ Faulty e cs := by
  obtain ⟨e, hanswer, hposition, hfaulty⟩ := faulty_of_scan p hclear h
  have hnext : (nextToken ⟨cs, p, false⟩).1 = .error e := by
    simp only [nextToken, show splitLayout false cs = ([], cs) from hclear, Position.after_nil,
      hanswer]
  refine ⟨e, ?_, hposition, hfaulty⟩
  rw [drain_eq rfl, hnext, drain_of_finished rfl]

end Lexer

/-- A text that has no tokens is cut up to where no lexeme stands, and what is wrong there is
the error. -/
theorem exists_cutBefore_of_tokenize_eq_error {source : String} {e : LexError}
    (h : tokenize source = .error e) :
    ∃ gap ps rest, source.toList = gap ++ (textOf ps ++ rest) ∧ Gap gap (textOf ps ++ rest) ∧
      CutBefore rest ps ∧ Faulty e rest ∧ e.position = Position.start.after (gap ++ textOf ps) := by
  obtain ⟨gap, ps, rest, htext, hg, hps, hclear, hstop⟩ := exists_cutBefore source.toList
  have htokens := Lexer.tokens_of_cutBefore .start hg hps
  rw [← htext, show Lexer.tokens ⟨source.toList, .start, false⟩ = .error e from h] at htokens
  cases ho : (scan rest).outcome with
  | ok kind =>
    -- nothing is left, so the tokens end without an error
    rw [hstop kind ho, Lexer.tokens_eq rfl] at htokens
    exact nomatch htokens
  | error f =>
    obtain ⟨e', hlast, hposition, hfaulty⟩ :=
      Lexer.drain_of_fault (Position.start.after (gap ++ textOf ps)) hclear ho
    rw [Lexer.tokens, hlast] at htokens
    obtain rfl : e = e' := Except.error.inj htokens
    exact ⟨gap, ps, rest, htext, hg, hps, hfaulty, hposition⟩

/-- A lexical error is about the first place where no lexeme stands, and says what is wrong
there. The text before that place has tokens, the ones that come before the error, and its
end is where the error is placed. -/
theorem tokenize_eq_error {source : String} {e : LexError} (h : tokenize source = .error e) :
    ∃ p r, source.toList = p ++ r ∧ r ≠ [] ∧
      (∃ ts, tokenize (String.ofList p) = .ok (ts ++ [endAt e.position]) ∧
        (Lexer.ofText source.toList).drain.1 = ts.map .ok ++ [.error e]) ∧
      Faulty e r := by
  obtain ⟨gap, ps, r, htext, hg, hps, hclear, hstop⟩ := exists_cutBefore source.toList
  have hcuts : Cutting.Cuts ⟨gap, ps⟩ (String.ofList (gap ++ textOf ps)).toList :=
    ⟨by rw [String.toList_ofList]; rfl, hg.of_append, hps.wellCut⟩
  cases ho : (scan r).outcome with
  | ok kind =>
    -- the whole text is cut, so it has tokens
    rw [hstop kind ho, List.append_nil] at htext
    rw [String.toList_ofList, ← htext] at hcuts
    rw [hcuts.tokenize] at h
    simp at h
  | error f =>
    have hdrain := Lexer.drain_of_cutBefore .start hg hps
    obtain ⟨e', hlast, hposition, hfaulty⟩ :=
      Lexer.drain_of_fault (Position.start.after (gap ++ textOf ps)) hclear ho
    rw [hlast, ← htext] at hdrain
    obtain rfl : e' = e := by
      rw [tokenize, Lexer.ofText, hdrain, List.mapM_append, Lexer.mapM_id_ok] at h
      exact Except.error.inj h
    refine ⟨gap ++ textOf ps, r, by rw [htext, List.append_assoc], hfaulty.ne_nil, ?_, hfaulty⟩
    refine ⟨placed (Position.start.after gap) ps, ?_, hdrain⟩
    rw [hposition, hcuts.tokenize, String.toList_ofList]

/-- A word, a comment and a number, and then a string literal that ends in a backslash. -/
def unclosedText : String := "x // \"\n1.5 \"a\\"

theorem unclosedText_fails : tokenize unclosedText = .error (.unterminatedString ⟨2, 5⟩) ∧
    ∃ p r, unclosedText.toList = p ++ r ∧ r ≠ [] ∧
      (∃ ts, tokenize (String.ofList p) = .ok (ts ++ [endAt ⟨2, 5⟩]) ∧
        (Lexer.ofText unclosedText.toList).drain.1 =
          ts.map .ok ++ [.error (.unterminatedString ⟨2, 5⟩)]) ∧
      Faulty (.unterminatedString ⟨2, 5⟩) r :=
  have h : tokenize unclosedText = .error (.unterminatedString ⟨2, 5⟩) := by decide +kernel
  ⟨h, tokenize_eq_error h⟩

end SchemaLang
