import SchemaLang.Proofs.Lexer.Tokens
import SchemaLang.Proofs.Location

/-!
# Where the tokens of a text stand

Each token is a piece of the text at its true place, and only a gap is between it and
the token before it. So places increase from token to token, up to the end of the text.
-/
namespace SchemaLang

open Lexical

/-- Each token with the one right before it. -/
def withPrevious (previous : Option Token) : List Token → List (Option Token × Token)
  | [] => []
  | t :: ts => (previous, t) :: withPrevious (some t) ts

theorem map_snd_withPrevious (previous : Option Token) (ts : List Token) :
    (withPrevious previous ts).map Prod.snd = ts := by
  induction ts generalizing previous with
  | nil => rfl
  | cons t ts ih => rw [withPrevious, List.map_cons, ih]

/-- The text `before` ends with the token and a gap, as they are in front of `rest`. -/
def Token.Precedes (q : Token) (before rest : List Char) : Prop :=
  ∃ front gap, before = front ++ (q.lexeme.toList ++ gap) ∧ Gap gap rest ∧
    Lexeme q.kind q.lexeme.toList (gap ++ rest)

/-- The token stands in the text at its place, right behind the one before it. -/
def Token.Stands (text : List Char) (previous : Option Token) (t : Token) : Prop :=
  ∃ before after, text = before ++ (t.lexeme.toList ++ after) ∧ t.position = .behind before ∧
    Lexeme t.kind t.lexeme.toList after ∧
    ∀ q ∈ previous, q.Precedes before (t.lexeme.toList ++ after)

theorem stands_of_placed {ps : List Piece} (h : WellCut ps) (before : List Char)
    (previous : Option Token) (hprevious : ∀ q ∈ previous, q.Precedes before (textOf ps)) :
    ∀ x ∈ withPrevious previous (placed (.behind before) ps),
      x.2.Stands (before ++ textOf ps) x.1 := by
  induction h generalizing before previous with
  | nil => simp [placed, withPrevious]
  | @cons p ps hl hg _ ih =>
    rw [textOf_cons] at hprevious ⊢
    rw [placed, withPrevious, List.forall_mem_cons, Position.after_behind]
    constructor
    · refine ⟨before, p.gap ++ textOf ps, ?_, rfl, ?_, ?_⟩
      · rw [String.toList_ofList]
      · simpa using hl
      · simpa using hprevious
    · have hrest := ih (before ++ (p.lexeme ++ p.gap))
        (some ⟨p.kind, String.ofList p.lexeme, .behind before⟩) (by
          rintro _ ⟨⟩
          exact ⟨before, p.gap, by rw [String.toList_ofList], hg, by simpa using hl⟩)
      simpa only [List.append_assoc] using hrest

/-- The tokens of a text stand in it, one behind the other. -/
theorem stands_of_cuts {c : Cutting} {source : String} (h : c.Cuts source.toList) :
    ∀ x ∈ withPrevious none (placed (Position.start.after c.front) c.pieces),
      x.2.Stands source.toList x.1 := by
  have hplaced := stands_of_placed h.pieces c.front none (by simp)
  rw [Position.start_after, ← h.text_eq]
  exact hplaced

section Increasing

/-- The tokens of pieces that begin at `p`, with the end behind them. -/
def placedToEnd (p : Position) (ps : List Piece) : List Token :=
  placed p ps ++ [endAt (p.after (textOf ps))]

theorem placedToEnd_cons (p : Position) (q : Piece) (qs : List Piece) :
    placedToEnd p (q :: qs) =
      ⟨q.kind, String.ofList q.lexeme, p⟩ :: placedToEnd (p.after (q.lexeme ++ q.gap)) qs := by
  simp [placedToEnd, placed]

/-- All of them are some text further on. -/
theorem exists_after_of_mem_placedToEnd {ps : List Piece} (p : Position) :
    ∀ t ∈ placedToEnd p ps, ∃ cs, t.position = p.after cs := by
  induction ps generalizing p with
  | nil =>
    intro t ht
    rw [List.mem_singleton.1 ht]
    exact ⟨[], rfl⟩
  | cons q qs ih =>
    rw [placedToEnd_cons, List.forall_mem_cons]
    refine ⟨⟨[], rfl⟩, ?_⟩
    intro t ht
    obtain ⟨cs, hcs⟩ := ih _ t ht
    exact ⟨q.lexeme ++ q.gap ++ cs, by rw [hcs, ← Position.after_append]⟩

theorem lexeme_ne_nil {kind : TokenKind} {l rest : List Char} (h : Lexeme kind l rest) :
    l ≠ [] := by
  have hscan := scan_of_lexeme h
  have hne := scan_taken_ne_nil (congrArg Scan.outcome hscan) (lexeme_kind_ne h)
  rwa [hscan] at hne

/-- Places increase, since no lexeme is empty. -/
theorem increasing_placedToEnd {ps : List Piece} (h : WellCut ps) (p : Position) :
    (placedToEnd p ps).Pairwise fun t u => t.position < u.position := by
  induction h generalizing p with
  | nil => simp [placedToEnd, placed]
  | @cons q qs hl _ _ ih =>
    rw [placedToEnd_cons, List.pairwise_cons]
    refine ⟨?_, ih _⟩
    intro t ht
    obtain ⟨cs, hcs⟩ := exists_after_of_mem_placedToEnd _ t ht
    rw [hcs, ← Position.after_append]
    exact p.lt_after (by simp [lexeme_ne_nil hl])

/-- The tokens of a text stand at increasing places. -/
theorem increasing_of_tokenize {source : String} {ts : List Token} (h : tokenize source = .ok ts) :
    ts.Pairwise fun t u => t.position < u.position := by
  obtain ⟨c, hc⟩ := Cutting.exists_cuts h
  obtain rfl := Except.ok.inj (hc.tokenize.symm.trans h)
  have htext : Position.start.after source.toList =
      (Position.start.after c.front).after (textOf c.pieces) := by
    rw [← Position.after_append, ← hc.text_eq]
    rfl
  rw [htext]
  exact increasing_placedToEnd hc.pieces _

end Increasing

end SchemaLang
