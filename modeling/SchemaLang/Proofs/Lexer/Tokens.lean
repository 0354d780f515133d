import SchemaLang.Lexer.Basic
import SchemaLang.Proofs.Lexer.Fronts

/-!
# A text is its gaps and its lexemes

The lexer gives one token for each piece of a text that is cut as the lexical
grammar has it, each at its place, and the end of the input behind them. A text
that cannot be cut so has no tokens, and no text can be cut in two ways.
-/
namespace SchemaLang

open Lexical

namespace Lexer

/-- All tokens that are still to come, or the first error. -/
def tokens (l : Lexer) : Except LexError (List Token) := l.drain.1.mapM id

theorem drain_of_finished {l : Lexer} (h : l.finished = true) : l.drain = ([], l) := by
  rw [drain]
  split
  · rfl
  · next answer ha => simp [next_of_finished h] at ha

theorem tokens_of_finished {l : Lexer} (h : l.finished = true) : l.tokens = .ok [] := by
  rw [tokens, drain_of_finished h]
  rfl

/-- The lexer behind its next token, which is finished if that was the last one. -/
theorem next_eq {l : Lexer} (h : l.finished = false) :
    l.next = (some l.nextToken.1, { l.nextToken.2 with finished := isLast l.nextToken.1 }) := by
  simp [next, h]

/-- What holds of a finished lexer, and before an answer if it holds behind it, holds of every
lexer. -/
@[elab_as_elim] theorem iterate_ind {P : Lexer → Prop}
    (finished : ∀ l : Lexer, l.finished = true → P l)
    (step : ∀ l : Lexer, l.finished = false →
      P { l.nextToken.2 with finished := isLast l.nextToken.1 } → P l) (l : Lexer) : P l := by
  induction hn : l.remaining using Nat.strongRecOn generalizing l with
  | ind n ih =>
    cases hf : l.finished with
    | true => exact finished l hf
    | false =>
      have hlt := remaining_next_lt (congrArg Prod.fst (next_eq hf))
      rw [next_eq hf, hn] at hlt
      exact step l hf (ih _ hlt _ rfl)

theorem drain_eq {l : Lexer} (h : l.finished = false) :
    l.drain =
      (l.nextToken.1 :: ({ l.nextToken.2 with finished := isLast l.nextToken.1 } : Lexer).drain.1,
        ({ l.nextToken.2 with finished := isLast l.nextToken.1 } : Lexer).drain.2) := by
  rw [drain]
  split
  · next ha => simp [next_eq h] at ha
  · next answer ha =>
    rw [next_eq h] at ha ⊢
    obtain rfl := Option.some.inj ha
    rfl

/-- The first token comes before the others, unless it is the end. -/
theorem tokens_eq {l : Lexer} (h : l.finished = false) :
    l.tokens =
      match l.nextToken.1 with
      | .error e => .error e
      | .ok t => if t.kind = .endOfInput then .ok [t] else l.nextToken.2.tokens.map (t :: ·) := by
  rw [tokens, drain_eq h, List.mapM_cons]
  change (do
    let t ← l.nextToken.1
    let ts ← ({ l.nextToken.2 with finished := isLast l.nextToken.1 } : Lexer).tokens
    pure (t :: ts)) = _
  cases hl : l.nextToken.1 with
  | error e => rfl
  | ok t =>
    by_cases ht : t.kind = .endOfInput
    · rw [tokens_of_finished (by simp [isLast, ht])]
      simp only [ht, if_true]
      rfl
    · have hlast : isLast (.ok t) = l.nextToken.2.finished := by
        simp [isLast, ht, h]
      rw [hlast]
      simp only [ht, if_false]
      rfl

end Lexer

/-- The tokens of pieces that begin at `p`. -/
def placed (p : Position) : List Piece → List Token
  | [] => []
  | q :: qs => ⟨q.kind, String.ofList q.lexeme, p⟩ :: placed (p.after (q.lexeme ++ q.gap)) qs

/-- The end of the input at `p`. -/
def endAt (p : Position) : Token := ⟨.endOfInput, "", p⟩

theorem placed_append (p : Position) (ps qs : List Piece) :
    placed p (ps ++ qs) = placed p ps ++ placed (p.after (textOf ps)) qs := by
  induction ps generalizing p with
  | nil => rfl
  | cons q ps ih => simp [placed, ih]

example : (placed .start [⟨.symbol, ['-'], []⟩, ⟨.integer, ['5'], [' ']⟩]).map (·.position) =
    [⟨1, 1⟩, ⟨1, 2⟩] := by decide

theorem lexeme_kind_ne {kind : TokenKind} {l rest : List Char} (h : Lexeme kind l rest) :
    kind ≠ .endOfInput := by
  cases h with
  | word _ hk _ => exact (wordClass_iff _ _).1 hk ▸ ofWord_ne_endOfInput _
  | _ => simp

/-- No piece gives the end of the input. -/
theorem kind_ne_of_mem_placed {ps : List Piece} (h : WellCut ps) (p : Position) :
    ∀ t ∈ placed p ps, t.kind ≠ .endOfInput := by
  induction h generalizing p with
  | nil => simp [placed]
  | cons hl _ _ ih =>
    rw [placed, List.forall_mem_cons]
    exact ⟨lexeme_kind_ne hl, ih _⟩

theorem clear_textOf {ps : List Piece} (h : WellCut ps) : Clear (textOf ps) := by
  cases h with
  | nil => rfl
  | cons hl => rw [textOf_cons]; exact clear_of_lexeme hl

/-- The next token of a text that begins with a gap and a piece. -/
theorem nextToken_of_piece {gap rest : List Char} {q : Piece} {p : Position} {finished : Bool}
    (hg : Gap gap (q.lexeme ++ rest)) (hl : Lexeme q.kind q.lexeme rest) :
    Lexer.nextToken ⟨gap ++ (q.lexeme ++ rest), p, finished⟩ =
      (.ok ⟨q.kind, String.ofList q.lexeme, p.after gap⟩,
        ⟨rest, (p.after gap).after q.lexeme, finished⟩) := by
  simp only [Lexer.nextToken, splitLayout_of_gap hg (clear_of_lexeme hl), scan_of_lexeme hl,
    Scan.answer]

theorem nextToken_of_end {gap : List Char} {p : Position} {finished : Bool} (hg : Gap gap []) :
    Lexer.nextToken ⟨gap, p, finished⟩ =
      (.ok ⟨.endOfInput, "", p.after gap⟩, ⟨[], p.after gap, finished⟩) := by
  have hs := splitLayout_of_gap hg rfl
  rw [List.append_nil] at hs
  simp [Lexer.nextToken, hs, scan, Scan.answer]

/-- Pieces that are cut well give their tokens, each where it stands. -/
theorem tokens_of_wellCut {gap : List Char} {ps : List Piece} (p : Position)
    (hg : Gap gap (textOf ps)) (h : WellCut ps) :
    Lexer.tokens ⟨gap ++ textOf ps, p, false⟩ =
      .ok (placed (p.after gap) ps ++ [endAt (p.after (gap ++ textOf ps))]) := by
  induction h generalizing gap p with
  | nil =>
    rw [textOf_nil, List.append_nil, Lexer.tokens_eq rfl, nextToken_of_end hg]
    rfl
  | @cons q qs hl hgap _ ih =>
    rw [textOf_cons] at hg ⊢
    rw [Lexer.tokens_eq rfl, nextToken_of_piece hg hl]
    simp only [lexeme_kind_ne hl, if_false, ih _ hgap, placed, Position.after_append]
    rfl

/-- A text with tokens is cut well. -/
theorem wellCut_of_tokens {cs : List Char} {p : Position} {ts : List Token}
    (h : Lexer.tokens ⟨cs, p, false⟩ = .ok ts) :
    ∃ gap ps, cs = gap ++ textOf ps ∧ Gap gap (textOf ps) ∧ WellCut ps := by
  -- what is behind the first lexeme is shorter than the text
  induction hn : cs.length using Nat.strongRecOn generalizing cs p ts with
  | ind n ih =>
    have hgap := (gap_splitLayout cs).1
    have hlayout := splitLayout_append false cs
    have hle := length_splitLayout_le false cs
    rw [Lexer.tokens_eq rfl] at h
    simp only [Lexer.nextToken, Scan.answer] at h
    generalize splitLayout false cs = s at h hgap hlayout hle
    obtain ⟨gap, text⟩ := s
    dsimp only at h hgap hlayout hle
    cases ho : (scan text).outcome with
    | error e => cases e <;> simp [ho] at h
    | ok kind =>
      rcases lexeme_of_scan ho with ⟨rfl, rfl⟩ | hl
      · exact ⟨gap, [], hlayout.symm, hgap, .nil⟩
      · have hscan := scan_append text
        have hlt := length_scan_rest_lt ho (lexeme_kind_ne hl)
        simp only [ho, lexeme_kind_ne hl, if_false] at h
        cases hrest : Lexer.tokens
            ⟨(scan text).rest, (p.after gap).after (scan text).taken, false⟩ with
        | error e => simp [hrest, Except.map] at h
        | ok us =>
          obtain ⟨gap', ps, he, hg, hps⟩ := ih _ (by omega) hrest rfl
          rw [he] at hl hscan
          refine ⟨gap, ⟨kind, (scan text).taken, gap'⟩ :: ps, ?_, ?_, .cons hl hg hps⟩
          · rw [textOf_cons, hscan, hlayout]
          · rw [textOf_cons, hscan]
            exact hgap

theorem textOf_ne_nil {p : Piece} {ps : List Piece} (h : WellCut (p :: ps)) :
    textOf (p :: ps) ≠ [] := by
  cases h with
  | cons hl _ _ =>
    intro hnil
    have hscan := scan_of_lexeme hl
    rw [← textOf_cons, hnil] at hscan
    exact lexeme_kind_ne hl (Except.ok.inj (congrArg Scan.outcome hscan)).symm

/-- Pieces that make up the same text are the same. -/
theorem wellCut_unique {ps qs : List Piece} (hp : WellCut ps) (hq : WellCut qs)
    (h : textOf ps = textOf qs) : ps = qs := by
  induction hp generalizing qs with
  | nil =>
    cases qs with
    | nil => rfl
    | cons q qs => exact absurd h.symm (textOf_ne_nil hq)
  | @cons p ps hl hg hps ih =>
    cases hq with
    | nil => exact absurd h (textOf_ne_nil (.cons hl hg hps))
    | @cons q qs hl' hg' hqs =>
      rw [textOf_cons, textOf_cons] at h
      have hscan := scan_of_lexeme hl
      rw [h, scan_of_lexeme hl'] at hscan
      obtain ⟨hkind, hlexeme, hrest⟩ := Scan.mk.inj hscan
      have hsplit := splitLayout_of_gap hg (clear_textOf hps)
      rw [← hrest, splitLayout_of_gap hg' (clear_textOf hqs)] at hsplit
      obtain ⟨hgap, htext⟩ := Prod.mk.inj hsplit
      obtain rfl := ih hqs htext.symm
      cases p
      cases q
      simp_all

namespace Lexical.Cutting

/-- A text is cut in one way at most. -/
theorem Cuts.unique {c d : Cutting} {cs : List Char} (hc : c.Cuts cs) (hd : d.Cuts cs) :
    c = d := by
  have htext : c.front ++ textOf c.pieces = d.front ++ textOf d.pieces :=
    hc.text_eq.trans hd.text_eq.symm
  have hsplit := splitLayout_of_gap hc.front (clear_textOf hc.pieces)
  rw [htext, splitLayout_of_gap hd.front (clear_textOf hd.pieces)] at hsplit
  obtain ⟨hfront, hpieces⟩ := Prod.mk.inj hsplit
  have hps := wellCut_unique hd.pieces hc.pieces hpieces
  cases c
  cases d
  simp_all

/-- The tokens of a text that is cut. -/
theorem Cuts.tokenize {c : Cutting} {source : String} (hc : c.Cuts source.toList) :
    tokenize source = .ok (placed (Position.start.after c.front) c.pieces ++
      [endAt (Position.start.after source.toList)]) := by
  have h := tokens_of_wellCut .start hc.front hc.pieces
  rw [show c.front ++ textOf c.pieces = _ from hc.text_eq] at h
  exact h

theorem exists_cuts {source : String} {ts : List Token} (h : SchemaLang.tokenize source = .ok ts) :
    ∃ c : Cutting, c.Cuts source.toList := by
  obtain ⟨gap, ps, he, hg, hps⟩ := wellCut_of_tokens h
  exact ⟨⟨gap, ps⟩, he.symm, hg, hps⟩

end Lexical.Cutting

/-- What a listing shows of a token besides its place. -/
def Token.spelling (t : Token) : TokenKind × String := (t.kind, t.lexeme)

theorem map_spelling_placed (p : Position) (ps : List Piece) :
    (placed p ps).map Token.spelling = ps.map fun q => (q.kind, String.ofList q.lexeme) := by
  induction ps generalizing p with
  | nil => rfl
  | cons q qs ih => simp [placed, Token.spelling, ih]

/-- The lexer accepts exactly its grammar: a text has the given tokens, with one end of the
input behind them, if and only if it is cut into lexemes of these classes with gaps between.
There is one such cutting at most, whatever the tokens, and its parts in order are the text. -/
theorem tokenize_eq_ok_iff (source : String) :
    (∀ spellings : List (TokenKind × String),
      (∃ ts, tokenize source = .ok ts ∧
        ts.map Token.spelling = spellings ++ [(.endOfInput, "")]) ↔
      ∃ c : Cutting, c.Cuts source.toList ∧ c.lexemes = spellings) ∧
    (∀ c d : Cutting, c.Cuts source.toList → d.Cuts source.toList → c = d) := by
  refine ⟨fun spellings => ⟨?_, ?_⟩, fun c d hc hd => hc.unique hd⟩
  · intro h
    obtain ⟨ts, hts, hsp⟩ := h
    obtain ⟨c, hc⟩ := Cutting.exists_cuts hts
    obtain rfl := Except.ok.inj (hc.tokenize.symm.trans hts)
    rw [List.map_append, map_spelling_placed] at hsp
    exact ⟨c, hc, List.append_cancel_right hsp⟩
  · intro h
    obtain ⟨c, hc, rfl⟩ := h
    refine ⟨_, hc.tokenize, ?_⟩
    rw [List.map_append, map_spelling_placed]
    rfl

end SchemaLang
