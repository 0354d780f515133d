import SchemaLang.Proofs.Lexer.Faults
import SchemaLang.Proofs.Lexer.Standing

/-!
# The places of tokens and of errors

A text with tokens is cut into pieces, and each of these has a place that can be counted
out of the text in front of it (`Cutting.before`). That is where its token says it stands.
A lexical error is placed likewise, behind a stretch of the text that is cut.
-/
namespace SchemaLang

open Lexical

/-- The token of each piece is placed behind the pieces before it. -/
theorem getElem?_placed (p : Position) (ps : List Piece) (k : Nat) :
    (placed p ps)[k]? =
      ps[k]?.map fun q => ⟨q.kind, String.ofList q.lexeme, p.after (textOf (ps.take k))⟩ := by
  induction ps generalizing p k with
  | nil => rfl
  | cons q qs ih =>
    cases k with
    | zero => rfl
    | succ k => simp only [placed, List.getElem?_cons_succ, ih, List.take_succ_cons, textOf_cons,
        Position.after_append]

theorem length_placed (p : Position) (ps : List Piece) : (placed p ps).length = ps.length := by
  induction ps generalizing p with
  | nil => rfl
  | cons q qs ih => rw [placed, List.length_cons, List.length_cons, ih]

namespace Lexical.Cutting

/-- The text in front of the piece with the given index, or all of it behind the last piece. -/
def before (c : Cutting) (k : Nat) : List Char := c.front ++ textOf (c.pieces.take k)

/-- A piece is the slice of the text behind what is in front of it. -/
theorem text_eq_before_append (c : Cutting) {k : Nat} {q : Piece} (h : c.pieces[k]? = some q) :
    c.text = c.before k ++ (q.lexeme ++ (q.gap ++ textOf (c.pieces.drop (k + 1)))) := by
  obtain ⟨hk, rfl⟩ := List.getElem?_eq_some_iff.1 h
  have hsplit : c.pieces = c.pieces.take k ++ c.pieces[k] :: c.pieces.drop (k + 1) := by
    rw [List.getElem_cons_drop, List.take_append_drop]
  have htext : textOf c.pieces = textOf (c.pieces.take k) ++
      textOf (c.pieces[k] :: c.pieces.drop (k + 1)) := by
    conv => lhs; rw [hsplit]
    exact List.flatMap_append
  rw [text, htext, textOf_cons, before, List.append_assoc]

/-- A piece comes before the next one, with its gap. -/
theorem before_succ (c : Cutting) {k : Nat} {q : Piece} (h : c.pieces[k]? = some q) :
    c.before (k + 1) = c.before k ++ (q.lexeme ++ q.gap) := by
  simp [before, List.take_add_one, h, textOf, List.flatMap_append]

/-- The tokens of a text that is cut, by the index of their pieces. -/
theorem Cuts.getElem?_tokens {c : Cutting} {source : String} (h : c.Cuts source.toList)
    {ts : List Token} (hts : SchemaLang.tokenize source = .ok ts) :
    ts.length = c.pieces.length + 1 ∧
    (∀ (k : Nat) (q : Piece), c.pieces[k]? = some q →
      ts[k]? = some ⟨q.kind, String.ofList q.lexeme, .behind (c.before k)⟩) ∧
    ts[c.pieces.length]? = some (endAt (.behind source.toList)) := by
  obtain rfl := Except.ok.inj (h.tokenize.symm.trans hts)
  have hlength := length_placed (Position.start.after c.front) c.pieces
  refine ⟨?_, ?_, ?_⟩
  · rw [List.length_append, hlength, List.length_singleton]
  · intro k q hq
    have hk : k < (placed (Position.start.after c.front) c.pieces).length := by
      rw [hlength]
      exact (List.getElem?_eq_some_iff.1 hq).1
    rw [List.getElem?_append_left hk, getElem?_placed, hq, Option.map_some, before,
      ← Position.start_after, Position.after_append]
  · rw [← hlength, List.getElem?_concat_length, Position.start_after]

end Lexical.Cutting

/-- Two tokens of a text, one right behind the other, with what is between them. -/
theorem exists_between {source : String} {front rest : List Token} {q t : Token}
    (h : tokenize source = .ok (front ++ q :: t :: rest)) (ht : t.kind ≠ .endOfInput) :
    ∃ before gap after,
      source.toList = before ++ (q.lexeme.toList ++ (gap ++ (t.lexeme.toList ++ after))) ∧
        q.position = .behind before ∧
        t.position = .behind (before ++ (q.lexeme.toList ++ gap)) := by
  obtain ⟨c, hc⟩ := Cutting.exists_cuts h
  obtain ⟨hlength, hpieces, hend⟩ := hc.getElem?_tokens h
  have hnext : (front ++ q :: t :: rest)[front.length + 1]? = some t := by simp
  have hbound : front.length + 1 < c.pieces.length := by
    have hle : front.length + 1 ≤ c.pieces.length := by
      simp only [List.length_append, List.length_cons] at hlength
      omega
    refine Nat.lt_of_le_of_ne hle fun heq => ht ?_
    rw [heq, hend] at hnext
    obtain rfl := Option.some.inj hnext
    rfl
  obtain ⟨a, ha⟩ : ∃ a, c.pieces[front.length]? = some a :=
    ⟨_, List.getElem?_eq_getElem (Nat.lt_of_succ_lt hbound)⟩
  obtain ⟨b, hb⟩ : ∃ b, c.pieces[front.length + 1]? = some b :=
    ⟨_, List.getElem?_eq_getElem hbound⟩
  have hq := hpieces _ _ ha
  rw [List.getElem?_append_right (Nat.le_refl _), Nat.sub_self, List.getElem?_cons_zero] at hq
  have hb' := hpieces _ _ hb
  rw [hnext, c.before_succ ha] at hb'
  obtain rfl := Option.some.inj hq
  obtain rfl := Option.some.inj hb'
  refine ⟨c.before front.length, a.gap,
    b.gap ++ textOf (c.pieces.drop (front.length + 2)), ?_, rfl, ?_⟩
  · have htext := c.text_eq_before_append hb
    rw [hc.text_eq, c.before_succ ha] at htext
    simpa using htext
  · simp

/-- The text in front of a lexical error is cut, and at its end stands what the error says. -/
theorem exists_cut_of_tokenize_eq_error {source : String} {e : LexError}
    (h : tokenize source = .error e) :
    ∃ (c : Cutting) (rest : List Char), source.toList = c.text ++ rest ∧ c.Cuts c.text ∧
      Faulty e rest ∧ e.position = .behind c.text := by
  obtain ⟨gap, ps, rest, htext, hg, hps, hfaulty, hposition⟩ :=
    exists_cutBefore_of_tokenize_eq_error h
  refine ⟨⟨gap, ps⟩, rest, ?_, ⟨rfl, hg.of_append, hps.wellCut⟩, hfaulty, ?_⟩
  · rw [htext, Cutting.text, List.append_assoc]
  · rw [hposition, Position.start_after]
    rfl

/-- The places that a text gives rise to are those counted out of it. With tokens the text is
cut in one way; each token stands at the place of its piece and the end at the end of the text,
and places increase from token to token. An error stands behind pieces and gaps, where the
text goes wrong. -/
theorem places_of_text (source : String) :
    match tokenize source with
    | .ok ts =>
      ∃ c : Cutting, c.Cuts source.toList ∧ (∀ d : Cutting, d.Cuts source.toList → d = c) ∧
        ts.length = c.pieces.length + 1 ∧
        (∀ (k : Nat) (q : Piece), c.pieces[k]? = some q →
          (∃ after, source.toList = c.before k ++ (q.lexeme ++ (q.gap ++ after))) ∧
          ts[k]? = some ⟨q.kind, String.ofList q.lexeme, .behind (c.before k)⟩) ∧
        ts[c.pieces.length]? = some (endAt (.behind source.toList)) ∧
        ts.Pairwise fun t u => t.position < u.position
    | .error e =>
      ∃ (c : Cutting) (rest : List Char), source.toList = c.text ++ rest ∧ c.Cuts c.text ∧
        Faulty e rest ∧ e.position = .behind c.text := by
  cases h : tokenize source with
  | ok ts =>
    obtain ⟨c, hc⟩ := Cutting.exists_cuts h
    obtain ⟨hlength, hpieces, hend⟩ := hc.getElem?_tokens h
    refine ⟨c, hc, fun d hd => hd.unique hc, hlength, ?_, hend, increasing_of_tokenize h⟩
    intro k q hq
    refine ⟨⟨textOf (c.pieces.drop (k + 1)), ?_⟩, hpieces k q hq⟩
    rw [← c.text_eq_before_append hq, hc.text_eq]
  | error e => exact exists_cut_of_tokenize_eq_error h

end SchemaLang
