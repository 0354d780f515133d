import SchemaLang.Proofs.Lexer.Tokens

/-!
# Texts up to a point

Any text is cut up to its end or up to its first fault, and the lexer gives the tokens
of these pieces before it comes to what is left (`exists_cutBefore`,
`drain_of_cutBefore`). The pieces stay what they are when the text ends behind them, and
when a line feed is what comes next.
-/
namespace SchemaLang

namespace Lexical

/-- Pieces that are what they should be in front of `rest`. -/
inductive CutBefore (rest : List Char) : List Piece → Prop where
  | nil : CutBefore rest []
  | cons {q : Piece} {qs : List Piece} :
      Lexeme q.kind q.lexeme (q.gap ++ (textOf qs ++ rest)) → Gap q.gap (textOf qs ++ rest) →
      CutBefore rest qs → CutBefore rest (q :: qs)

section Heads

variable {P : Char → Prop} {cs rest : List Char}

theorem forall_head?_of_append (h : ∀ c ∈ (cs ++ rest).head?, P c) : ∀ c ∈ cs.head?, P c := by
  cases cs with
  | nil => simp
  | cons c cs => exact h

theorem forall_head?_append_line (h : ∀ c ∈ cs.head?, P c) (hline : P '\n') :
    ∀ c ∈ (cs ++ '\n' :: rest).head?, P c := by
  cases cs with
  | nil =>
    rintro c ⟨⟩
    exact hline
  | cons c cs => exact h

end Heads

/-- A gap is one also if the text ends earlier. -/
theorem Gap.of_append {gap cs rest : List Char} (h : Gap gap (cs ++ rest)) : Gap gap cs := by
  generalize hall : cs ++ rest = all at h
  induction h with
  | nil => exact .nil
  | blank hb _ ih => exact .blank hb (ih hall)
  | comment hb hc _ ih =>
    subst hall
    rw [← List.append_assoc] at hc
    exact .comment hb (forall_head?_of_append hc) (ih rfl)

/-- A lexeme is no shorter than it could be if less text follows. -/
theorem Lexeme.of_append {kind : TokenKind} {l cs rest : List Char}
    (h : Lexeme kind l (cs ++ rest)) : Lexeme kind l cs := by
  cases h with
  | word hw hk hr => exact .word hw hk (forall_head?_of_append hr)
  | integer hd hr => exact .integer hd (forall_head?_of_append hr)
  | float hd hf hr => exact .float hd hf (forall_head?_of_append hr)
  | string hb => exact .string hb
  | arrow => exact .arrow
  | equals hr => exact .equals (forall_head?_of_append hr)
  | punctuation hc => exact .punctuation hc

/-- A line feed behind the text ends a comment, and changes nothing else of a gap. -/
theorem Gap.append_line {gap cs : List Char} (h : Gap gap cs) (rest : List Char) :
    Gap gap (cs ++ '\n' :: rest) := by
  induction h with
  | nil => exact .nil
  | blank hb _ ih => exact .blank hb ih
  | comment hb hc _ ih =>
    refine .comment hb ?_ ih
    rw [← List.append_assoc]
    exact forall_head?_append_line hc rfl

/-- No lexeme goes on with a line feed. -/
theorem Lexeme.append_line {kind : TokenKind} {l cs : List Char} (h : Lexeme kind l cs)
    (rest : List Char) : Lexeme kind l (cs ++ '\n' :: rest) := by
  cases h with
  | word hw hk hr => exact .word hw hk (forall_head?_append_line hr (by decide))
  | integer hd hr => exact .integer hd (forall_head?_append_line hr (by decide))
  | float hd hf hr => exact .float hd hf (forall_head?_append_line hr (by decide))
  | string hb => exact .string hb
  | arrow => exact .arrow
  | equals hr => exact .equals (forall_head?_append_line hr (by decide))
  | punctuation hc => exact .punctuation hc

/-- The pieces in front of `rest` are cut well if the text ends there. -/
theorem CutBefore.wellCut {rest : List Char} {ps : List Piece} (h : CutBefore rest ps) :
    WellCut ps := by
  induction h with
  | nil => exact .nil
  | cons hl hg _ ih =>
    rw [← List.append_assoc] at hl
    exact .cons hl.of_append hg.of_append ih

theorem WellCut.before_line {ps : List Piece} (h : WellCut ps) (rest : List Char) :
    CutBefore ('\n' :: rest) ps := by
  induction h with
  | nil => exact .nil
  | cons hl hg _ ih =>
    have hl' := hl.append_line rest
    rw [List.append_assoc] at hl'
    exact .cons hl' (hg.append_line rest) ih

end Lexical

open Lexical

namespace Lexer

/-- What comes behind a gap comes next. -/
theorem nextToken_gap_append {gap rest : List Char} (p : Position) (finished : Bool)
    (h : Gap gap rest) :
    nextToken ⟨gap ++ rest, p, finished⟩ = nextToken ⟨rest, p.after gap, finished⟩ := by
  simp only [nextToken, splitLayout_gap_append h, Position.after_append]

theorem drain_congr {l l' : Lexer} (h : l.finished = false) (h' : l'.finished = false)
    (hn : l.nextToken = l'.nextToken) : l.drain.1 = l'.drain.1 := by
  rw [drain_eq h, drain_eq h', hn]

/-- The tokens of the pieces come first, each where it stands. -/
theorem drain_of_cutBefore {gap rest : List Char} {ps : List Piece} (p : Position)
    (hg : Gap gap (textOf ps ++ rest)) (h : CutBefore rest ps) :
    (drain ⟨gap ++ (textOf ps ++ rest), p, false⟩).1 =
      (placed (p.after gap) ps).map .ok ++ (drain ⟨rest, p.after (gap ++ textOf ps), false⟩).1 := by
  induction h generalizing gap p with
  | nil =>
    rw [textOf_nil, List.nil_append] at hg
    rw [textOf_nil, List.nil_append, List.append_nil]
    exact drain_congr rfl rfl (nextToken_gap_append p false hg)
  | @cons q qs hl hgap _ ih =>
    rw [textOf_cons, List.append_assoc, List.append_assoc] at hg
    have hlast : isLast (.ok ⟨q.kind, String.ofList q.lexeme, p.after gap⟩) = false := by
      simp [isLast, lexeme_kind_ne hl]
    rw [textOf_cons, List.append_assoc, List.append_assoc, drain_eq rfl, nextToken_of_piece hg hl]
    simp only [hlast, ih _ hgap, placed, Position.after_append, List.map_cons, List.cons_append]

theorem mapM_id_ok (ts : List Token) :
    (ts.map Except.ok : List (Except LexError Token)).mapM id = .ok ts := by
  induction ts with
  | nil => rfl
  | cons t ts ih => simp only [List.map_cons, List.mapM_cons, ih]; rfl

/-- The same when all answers are asked for at once. -/
theorem tokens_of_cutBefore {gap rest : List Char} {ps : List Piece} (p : Position)
    (hg : Gap gap (textOf ps ++ rest)) (h : CutBefore rest ps) :
    tokens ⟨gap ++ (textOf ps ++ rest), p, false⟩ =
      (tokens ⟨rest, p.after (gap ++ textOf ps), false⟩).map (placed (p.after gap) ps ++ ·) := by
  rw [tokens, drain_of_cutBefore p hg h, List.mapM_append, mapM_id_ok]
  rfl

end Lexer

/-- Every text is cut up to its end, or up to where no lexeme stands. -/
theorem exists_cutBefore (cs : List Char) :
    ∃ gap ps rest, cs = gap ++ (textOf ps ++ rest) ∧ Gap gap (textOf ps ++ rest) ∧
      CutBefore rest ps ∧ Clear rest ∧ ∀ kind, (scan rest).outcome = .ok kind → rest = [] := by
  -- what is behind the first lexeme is shorter than the text
  induction hn : cs.length using Nat.strongRecOn generalizing cs with
  | ind n ih =>
    obtain ⟨hgap, hclear⟩ := gap_splitLayout cs
    have hlayout := splitLayout_append false cs
    have hle := length_splitLayout_le false cs
    generalize splitLayout false cs = s at hgap hclear hlayout hle
    obtain ⟨gap, text⟩ := s
    dsimp only at hgap hclear hlayout hle
    by_cases hstop : ∀ kind, (scan text).outcome = .ok kind → text = []
    · exact ⟨gap, [], text, hlayout.symm, hgap, .nil, hclear, hstop⟩
    · obtain ⟨kind, ho, hne⟩ : ∃ kind, (scan text).outcome = .ok kind ∧ text ≠ [] := by
        simpa using hstop
      have hl : Lexeme kind (scan text).taken (scan text).rest := by
        rcases lexeme_of_scan ho with ⟨hnil, -⟩ | hl
        · exact absurd hnil hne
        · exact hl
      have hscan := scan_append text
      have hlt := length_scan_rest_lt ho (lexeme_kind_ne hl)
      obtain ⟨gap', ps, rest, he, hg, hps, hrest⟩ := ih _ (by omega) (scan text).rest rfl
      have htext : text = (scan text).taken ++ (gap' ++ (textOf ps ++ rest)) := by
        rw [← he, hscan]
      rw [he] at hl
      refine ⟨gap, ⟨kind, (scan text).taken, gap'⟩ :: ps, rest, ?_, ?_, .cons hl hg hps, hrest⟩
      · rw [textOf_cons, List.append_assoc, List.append_assoc, ← htext, hlayout]
      · rw [textOf_cons, List.append_assoc, List.append_assoc, ← htext]
        exact hgap

end SchemaLang
