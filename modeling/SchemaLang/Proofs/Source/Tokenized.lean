import SchemaLang.FrontEnd
import SchemaLang.Proofs.Lexer.Tokens
import SchemaLang.Proofs.Numeral.Integer
import SchemaLang.Proofs.Parser.Acceptance
import SchemaLang.Proofs.Program.WellFormed

/-!
# What a text can say

The tokens of a text are lexemes of their classes. So whatever the grammar makes of
them is spellable: a name comes from an identifier, a number from the numeral that
its token is. `parseSource_of_cuts` takes the front end apart into the cutting of the
text, the grammar and the rules.
-/
namespace SchemaLang

open Grammar Lexical

variable {α β : Type}

/-- The token is what its class says, as it is when it comes from a text. -/
def Token.Lexed (t : Token) : Prop := ∃ rest, Lexeme t.kind t.lexeme.toList rest

/-- The lexeme of a token, by its class. -/
theorem Token.Lexed.lexeme {t : Token} {kind : TokenKind} (h : t.Lexed) (hk : t.kind = kind) :
    ∃ l rest, t.lexeme = String.ofList l ∧ Lexeme kind l rest := by
  obtain ⟨rest, hl⟩ := h
  rw [hk] at hl
  exact ⟨_, rest, (String.ofList_toList).symm, hl⟩

theorem Token.Lexed.kind_ne {t : Token} (h : t.Lexed) : t.kind ≠ .endOfInput :=
  h.elim fun _ => lexeme_kind_ne

theorem lexed_of_mem_placed {ps : List Piece} (h : WellCut ps) (p : Position) :
    ∀ t ∈ placed p ps, t.Lexed := by
  induction h generalizing p with
  | nil => simp [placed]
  | cons hl _ _ ih =>
    rw [placed, List.forall_mem_cons]
    exact ⟨⟨_, by simpa using hl⟩, ih _⟩

/-- A text has tokens that come from it, and then an end. -/
theorem exists_lexed_of_tokenize {source : String} {ts : List Token}
    (h : tokenize source = .ok ts) : ∃ us p, ts = us ++ [endAt p] ∧ ∀ t ∈ us, t.Lexed := by
  obtain ⟨c, hc⟩ := Cutting.exists_cuts h
  have hts := Except.ok.inj (hc.tokenize.symm.trans h)
  exact ⟨_, _, hts.symm, lexed_of_mem_placed hc.pieces _⟩

/-- The front end runs the machine over the tokens before the end. -/
theorem parseSource_of_tokens {source : String} {ts : List Token} {p : Position}
    (h : tokenize source = .ok (ts ++ [endAt p])) (hts : ∀ t ∈ ts, t.kind ≠ .endOfInput) :
    parseSource source =
      (State.between.run (some maxNesting) p ts).result.mapError .syntactic := by
  rw [parseSource, h]
  exact congrArg (Except.mapError _) (parseWithin_of_ofTokens (ofTokens_append_end hts rfl))

/-- The front end on a text that is cut: the tokens spell the program, which keeps the rules. -/
theorem parseSource_of_cuts {c : Cutting} {source : String} (hc : c.Cuts source.toList)
    (p : Program) :
    parseSource source = .ok p ↔
      Derives (placed (Position.start.after c.front) c.pieces) p ∧
        p.Distinct ∧ p.NestedWithin 128 := by
  have hread : (State.between.run (some maxNesting) (Position.start.after source.toList)
      (placed (Position.start.after c.front) c.pieces)).result = .ok p ↔
        Derives (placed (Position.start.after c.front) c.pieces) p ∧
          ∀ m ∈ p.modules, m.Fits (some 128) := run_result_eq_ok_iff
  rw [parseSource_of_tokens hc.tokenize (kind_ne_of_mem_placed hc.pieces _), ← fits_iff, ← hread]
  cases (State.between.run (some maxNesting) (Position.start.after source.toList)
      (placed (Position.start.after c.front) c.pieces)).result with
  | error e => simp [Except.mapError]
  | ok q => simp [Except.mapError]

theorem exists_cuts_of_parseSource {source : String} {p : Program}
    (h : parseSource source = .ok p) : ∃ c : Cutting, c.Cuts source.toList := by
  unfold parseSource at h
  cases ht : tokenize source with
  | error e => simp [ht] at h
  | ok ts => exact Cutting.exists_cuts ht

/-- Whatever the tokens of a text spell is as `P` says. -/
def Yields (piece : List Token → β → Prop) (P : β → Prop) : Prop :=
  ∀ ts b, (∀ t ∈ ts, t.Lexed) → piece ts b → P b

section Leaves

/-- An identifier of a text is a name. -/
theorem Grammar.Names.isName {t : Token} {i : Ident} (h : Names t i) (ht : t.Lexed) :
    IsName i.name := by
  obtain ⟨hk, rfl⟩ := h
  obtain ⟨rest, hl⟩ := ht
  rw [hk] at hl
  obtain ⟨hw, hc⟩ := word_of_identifier hl
  rw [String.ofList_toList] at hc
  exact ⟨hw, hc⟩

/-- The numeral of a floating point number, with or without its sign. -/
theorem Grammar.NumberText.isDecimal {ts : List Token} {text : String}
    (h : NumberText ts .float text) (ht : ∀ t ∈ ts, t.Lexed) : IsDecimal text.toList := by
  generalize hk : TokenKind.float = kind at h
  cases h with
  | @plain t =>
    obtain ⟨l, rest, hlexeme, hl⟩ := (ht t (by simp)).lexeme hk.symm
    obtain ⟨ds, fs, rfl, hd, hf⟩ := fraction_of_float hl
    rw [hlexeme, String.toList_ofList]
    exact .plain hd hf
  | @negated m t _ _ =>
    obtain ⟨l, rest, hlexeme, hl⟩ := (ht t (by simp)).lexeme hk.symm
    obtain ⟨ds, fs, rfl, hd, hf⟩ := fraction_of_float hl
    rw [hlexeme, Numeral.minus_append, String.toList_ofList]
    exact .negated hd hf

theorem yields_typeText : Yields TypeText TypeLeaf.Spellable := by
  intro ts a ht h
  cases h with
  | primitive _ _ => trivial
  | named hn => exact hn.isName (ht _ (by simp))

theorem yields_scalarText : Yields ScalarText Scalar.Spellable := by
  intro ts v ht h
  cases h with
  | integer _ _ => trivial
  | @float _ text x hn hx => exact ⟨_, hn.isDecimal ht, by rwa [String.ofList_toList]⟩
  | string _ => trivial
  | boolean _ => trivial

end Leaves

section Trees

variable {leaf : List Token → α → Prop} {P : α → Prop}

-- One statement for each production. The tokens of a part are among those of the whole.
mutual

theorem all_of_value (hleaf : Yields leaf P) {ts : List Token} {v : Tree Ident α}
    (h : Value leaf ts v) (ht : ∀ t ∈ ts, t.Lexed) : v.All (fun i => IsName i.name) P := by
  cases h with
  | leaf ha => exact hleaf _ _ ht ha
  | object hb =>
    rw [Tree.all_object]
    exact all_of_braced hleaf hb ht

theorem all_of_braced (hleaf : Yields leaf P) {ts : List Token}
    {es : List (Ident × Tree Ident α)} (h : Braced leaf ts es) (ht : ∀ t ∈ ts, t.Lexed) :
    ∀ e ∈ es, IsName e.1.name ∧ e.2.All (fun i => IsName i.name) P := by
  cases h with
  | empty _ _ => simp
  | items _ hi _ _ =>
    refine all_of_items hleaf hi fun t hm => ht t ?_
    simp [hm]

theorem all_of_items (hleaf : Yields leaf P) {ts : List Token}
    {es : List (Ident × Tree Ident α)} (h : Items leaf ts es) (ht : ∀ t ∈ ts, t.Lexed) :
    ∀ e ∈ es, IsName e.1.name ∧ e.2.All (fun i => IsName i.name) P := by
  cases h with
  | one hi =>
    rw [List.forall_mem_singleton]
    exact all_of_item hleaf hi ht
  | more hi _ his =>
    rw [List.forall_mem_cons]
    constructor
    · exact all_of_item hleaf hi fun t hm => ht t (by simp [hm])
    · exact all_of_items hleaf his fun t hm => ht t (by simp [hm])

theorem all_of_item (hleaf : Yields leaf P) {ts : List Token} {e : Ident × Tree Ident α}
    (h : Item leaf ts e) (ht : ∀ t ∈ ts, t.Lexed) :
    IsName e.1.name ∧ e.2.All (fun i => IsName i.name) P := by
  cases h with
  | mk hn _ hv =>
    constructor
    · exact hn.isName (ht _ (by simp))
    · exact all_of_value hleaf hv fun t hm => ht t (by simp [hm])

end

end Trees

theorem yields_declares : Yields Declares Declaration.Spellable := by
  intro ts d ht h
  cases h with
  | type _ hn _ hb =>
    refine ⟨hn.isName (ht _ (by simp)), ?_⟩
    rw [Tree.all_object]
    exact all_of_braced yields_typeText hb fun t hm => ht t (by simp [hm])
  | binding _ hn _ hv =>
    refine ⟨hn.isName (ht _ (by simp)), ?_⟩
    rw [Tree.mapKeys_eq_map, Tree.all_map]
    exact all_of_value yields_scalarText hv fun t hm => ht t (by simp [hm])

theorem Yields.many {piece : List Token → β → Prop} {P : β → Prop} (h : Yields piece P) :
    Yields (Many piece) fun bs => ∀ b ∈ bs, P b := by
  intro ts bs ht hbs
  induction hbs with
  | nil => simp
  | cons hb _ ih =>
    rw [List.forall_mem_cons]
    constructor
    · exact h _ _ (fun t hm => ht t (by simp [hm])) hb
    · exact ih fun t hm => ht t (by simp [hm])

theorem yields_isModule : Yields IsModule Module.Spellable := by
  intro ts m ht h
  cases h with
  | mk _ hn _ hds _ =>
    refine ⟨hn.isName (ht _ (by simp)), ?_⟩
    exact yields_declares.many _ _ (fun t hm => ht t (by simp [hm])) hds

/-- Every program that a text denotes is well formed. -/
theorem wellFormed_of_parseSource {source : String} {p : Program}
    (h : parseSource source = .ok p) : p.WellFormed := by
  obtain ⟨c, hc⟩ := exists_cuts_of_parseSource h
  obtain ⟨hd, hdistinct, hnested⟩ := (parseSource_of_cuts hc p).1 h
  have ht := lexed_of_mem_placed hc.pieces (Position.start.after c.front)
  exact ⟨yields_isModule.many _ _ ht hd, hdistinct, hnested⟩

end SchemaLang
