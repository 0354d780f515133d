import SchemaLang.Proofs.Parser.Acceptance
import SchemaLang.Proofs.Parser.BlockStructure

/-!
# Repeated names

Token by token, the names that the machine holds are those of the open blocks
(`Outline.Follows`). So what it compares at a closing brace is the block that closes,
and where it stops at a repeated name, all blocks that closed before were free of
repetitions. On tokens that spell a program nothing else can stop it.
-/
namespace SchemaLang

open Grammar

variable {α : Type} {limit : Option Nat}

/-- The blocks of the objects around a value, each with the key whose value is being read. -/
def frameBlocks (scope : Scope) (outer : List (Frame α)) : List Block :=
  outer.map fun f => ⟨scope, f.entries.reverse.map (·.1) ++ [f.key]⟩

/-- The block of a module whose next declaration has been named so far, if it has. -/
def OpenModule.block (m : OpenModule) (latest : List Ident) : Block :=
  ⟨.declaration, m.declarations.reverse.map (·.name) ++ latest⟩

namespace Outline

/-- The innermost block is that of the place, within the blocks `around`. -/
def FollowsPlace (scope : Scope) (around : List Block) (o : Outline) : Place α → Prop
  | .brace => o.inside = scope ∧ o.blocks = around
  | .value => o.isIntroduced = false ∧ o.inside = scope ∧ o.blocks = around
  | .number _ => o.blocks = around
  | .entry es => o.isIntroduced ∧ o.blocks = ⟨scope, es.reverse.map (·.1)⟩ :: around
  | .colon es k => o.blocks = ⟨scope, es.reverse.map (·.1) ++ [k]⟩ :: around
  | .separator es => o.blocks = ⟨scope, es.reverse.map (·.1)⟩ :: around

def FollowsBody (scope : Scope) (around : List Block) (o : Outline) (b : Body α) : Prop :=
  o.FollowsPlace scope (frameBlocks scope b.outer ++ around) b.place

/-- The open blocks are those of the state, each with the names that the machine holds. -/
def Follows (o : Outline) : State → Prop
  | .between => o.blocks = []
  | .moduleName => o.blocks = []
  | .moduleBrace _ => o.blocks = [] ∧ o.inside = .declaration
  | .declarations m => o.blocks = [m.block []]
  | .declarationName m _ => o.isIntroduced ∧ o.blocks = [m.block []]
  | .sign m _ i => o.blocks = [m.block [i]]
  | .fields m i b => o.FollowsBody .field [m.block [i]] b
  | .value m _ i b => o.FollowsBody .key [m.block [i]] b

variable {o : Outline} {t : Token} {scope : Scope} {around : List Block}

/-- A brace that closes a block without repetitions, or no closing brace at all. -/
def ClosesDistinct (o : Outline) (t : Token) : Prop := ∀ c ∈ o.closes t, c.Distinct

theorem Passes.closesDistinct {is : List Ident} (h : o.Passes [t] [] is) : o.ClosesDistinct t := by
  intro c hc
  have hclosed : (o.closes t).toList.map Block.spelling = [] := by
    simpa [Outline.closed] using h.closed
  rw [hc] at hclosed
  exact absurd hclosed (by simp)

theorem closesDistinct_of_open (h : t.isSymbol "\x7b") : o.ClosesDistinct t := by
  simp [ClosesDistinct, closes, Token.isSymbol_eq_false h "\x7d" (by decide)]

theorem Passes.blocks_next (h : o.Passes [t] [] []) : (o.next t).blocks = o.blocks := by
  simpa using h.blocks

/-- In front of a closing brace the innermost block has the names of the entries. -/
theorem FollowsBody.blocks_eq {place : Place α} {es : Entries α} {outer : List (Frame α)}
    (h : o.FollowsBody scope around ⟨place, outer⟩)
    (hp : place = .entry es ∨ place = .separator es) :
    o.blocks = ⟨scope, es.reverse.map (·.1)⟩ :: (frameBlocks scope outer ++ around) := by
  rcases hp with rfl | rfl
  · exact h.2
  · exact h

/-- What a token does to a body, it does to the blocks, and what it closes is distinct. -/
def KeepsBody (scope : Scope) (around : List Block) (o : Outline) (t : Token)
    (v : Verdict (Body α) (Tree Ident α)) : Prop :=
  v.Keeps (fun b => o.ClosesDistinct t ∧ (o.next t).FollowsBody scope around b)
    (fun _ => o.ClosesDistinct t ∧ (o.next t).blocks = around)
    fun e => e.IsDuplicate → ∃ c ∈ o.closes t, c.Reports e

/-- With the value complete, its key is that of an entry. -/
theorem keepsBody_complete {outer : List (Frame α)} (hc : o.ClosesDistinct t)
    (h : (o.next t).blocks = frameBlocks scope outer ++ around) (tree : Tree Ident α) :
    o.KeepsBody scope around t (Body.complete tree outer) := by
  cases outer with
  | nil => exact ⟨hc, h⟩
  | cons f outer =>
    refine ⟨hc, ?_⟩
    simpa [FollowsBody, FollowsPlace, frameBlocks] using h

end Outline

open Outline in
theorem Body.Move.keepsBody {g : LeafGrammar α} {around : List Block} {o : Outline} {b : Body α}
    {t : Token} {v : Verdict (Body α) (Tree Ident α)} (hm : Body.Move g limit b t v)
    (hg : g.Plain) (h : o.FollowsBody g.scope around b) : o.KeepsBody g.scope around t v := by
  cases hm with
  | @opened place outer t hp ht =>
    obtain ⟨hinside, hblocks⟩ : o.inside = g.scope ∧
        o.blocks = frameBlocks g.scope outer ++ around := by
      rcases hp with rfl | rfl
      · exact h
      · exact h.2
    refine ⟨closesDistinct_of_open ht, isIntroduced_next (by simp [Token.introduces, ht]), ?_⟩
    rw [blocks_next_open ht, hinside, hblocks]
    rfl
  | tooDeep => simp [KeepsBody, ParseError.IsDuplicate]
  | minus _ ht =>
    obtain ⟨-, -, hblocks⟩ := h
    have hpass : o.Passes [t] [] [] := passes_symbol ht (by decide) (by decide)
    exact ⟨hpass.closesDistinct, hpass.blocks_next.trans hblocks⟩
  | leaf hl =>
    obtain ⟨ho, -, hblocks⟩ := h
    have hpass := passes_leaf ho (hg.leaf_kind hl).1
    exact keepsBody_complete hpass.closesDistinct (hpass.blocks_next.trans hblocks) _
  | badLeaf hl => exact fun he => absurd he (hg.leaf_error hl)
  | negated _ hl =>
    have hkind : t.kind ≠ .symbol ∧ t.kind ≠ .identifier := by
      rcases hg.negated_kind hl with hk | hk
      · simp [hk]
      · simp [hk]
    have hpass := passes_of_kind (o := o) hkind.1
    rw [o.names_of_kind hkind.2] at hpass
    exact keepsBody_complete hpass.closesDistinct (hpass.blocks_next.trans h) _
  | badNegated _ hl => exact fun he => absurd he (hg.negated_error hl)
  | @closed place es outer t hp ht hd =>
    have hblocks := h.blocks_eq hp
    refine keepsBody_complete ?_ (by rw [blocks_next_close ht, hblocks, List.tail_cons]) _
    rw [ClosesDistinct, closes_of_isSymbol ht, hblocks]
    rintro c ⟨⟩
    exact (duplicate?_eq_none_iff _ _).1 hd
  | @repeated place es outer t e hp ht hd =>
    intro _
    have hblocks := h.blocks_eq hp
    rw [closes_of_isSymbol ht, hblocks]
    exact ⟨_, rfl, Block.reports_of_duplicate? hd⟩
  | key hk =>
    obtain ⟨ho, hblocks⟩ := h
    have hpass := passes_name (Token.ident?_eq_some_iff.1 hk) ho
    refine ⟨hpass.closesDistinct, ?_⟩
    have hnext := hpass.blocks
    rw [hblocks] at hnext
    exact hnext
  | @colon es k outer t ht =>
    have hpass : o.Passes [t] [] [] := passes_symbol ht (by decide) (by decide)
    refine ⟨hpass.closesDistinct, isIntroduced_next_of_symbol ht (by decide) (by decide), ?_, ?_⟩
    · rw [inside_next_colon ht, scope?, show o.blocks = _ from h]
      rfl
    · exact hpass.blocks_next.trans h
  | comma ht =>
    have hpass : o.Passes [t] [] [] := passes_symbol ht (by decide) (by decide)
    exact ⟨hpass.closesDistinct, isIntroduced_next (by simp [Token.introduces, ht]),
      hpass.blocks_next.trans h⟩
  | reject => trivial

open Outline in
/-- What a token does to a state, it does to the blocks. If a repeated name comes to light, it
is in the block that the token closes. -/
theorem State.Move.keeps_follows {o : Outline} {s : State} {t : Token} {v : Verdict State Module}
    (hm : State.Move limit s t v) (h : o.Follows s) :
    v.Keeps (fun u => o.ClosesDistinct t ∧ (o.next t).Follows u)
      (fun _ => o.ClosesDistinct t ∧ (o.next t).Follows .between)
      fun e => e.IsDuplicate → ∃ c ∈ o.closes t, c.Reports e := by
  cases hm with
  | opensModule ht =>
    have hpass : o.Passes [t] [] [] := passes_keyword ht
    exact ⟨hpass.closesDistinct, hpass.blocks_next.trans h⟩
  | namesModule ht =>
    have hn := Token.ident?_eq_some_iff.1 ht
    have hpass := passes_of_kind (o := o) (t := t) (by simp [hn.1])
    have hblocks : (o.next t).blocks = [] := by
      have hnext := hpass.blocks
      rw [show o.blocks = [] from h] at hnext
      exact hnext
    have hsymbol : ∀ s, (o.next t).isBehind s = false :=
      Token.isSymbol_eq_false_of_kind (by simp [hn.1])
    refine ⟨hpass.closesDistinct, hblocks, ?_⟩
    rw [inside, hsymbol, hsymbol, hblocks]
    rfl
  | bracesModule ht =>
    obtain ⟨hblocks, hinside⟩ := h
    refine ⟨closesDistinct_of_open ht, ?_⟩
    show (o.next t).blocks = _
    rw [blocks_next_open ht, hinside, hblocks]
    rfl
  | closesModule ht hc =>
    have hblocks : o.blocks = _ := h
    refine ⟨?_, ?_⟩
    · rw [ClosesDistinct, closes_of_isSymbol ht, hblocks]
      rintro c ⟨⟩
      have hd := (duplicate?_eq_none_iff _ _).1 (OpenModule.close_eq_ok hc).2
      simpa [Block.Distinct, OpenModule.block] using hd
    · show (o.next t).blocks = _
      rw [blocks_next_close ht, hblocks]
      rfl
  | @repeated t m e ht hc =>
    intro _
    have hblocks : o.blocks = _ := h
    rw [closes_of_isSymbol ht, hblocks]
    have hreports := Block.reports_of_duplicate? (OpenModule.close_eq_error hc)
    exact ⟨_, rfl, by simpa [OpenModule.block] using hreports⟩
  | @announces t m form ht =>
    have hk := Form.keyword_of_ofToken? ht
    have hpass : o.Passes [t] [] [] := passes_keyword hk
    have hword : form.keyword ∈ ["type", "const", "let"] := by
      cases form with
      | type => decide
      | binding kind => cases kind <;> decide
    have hintroduces : t.introduces := by
      simp only [Token.introduces, Bool.or_eq_true, List.any_eq_true]
      exact .inr ⟨_, hword, hk⟩
    exact ⟨hpass.closesDistinct, isIntroduced_next hintroduces, hpass.blocks_next.trans h⟩
  | namesDeclaration ht =>
    obtain ⟨ho, hblocks⟩ := h
    have hpass := passes_name (Token.ident?_eq_some_iff.1 ht) ho
    refine ⟨hpass.closesDistinct, ?_⟩
    have hnext := hpass.blocks
    rw [hblocks] at hnext
    simpa [Follows, OpenModule.block, Block.add] using hnext
  | @signs t m form i ht =>
    cases form with
    | type =>
      have hpass : o.Passes [t] [] [] := passes_symbol ht (by decide) (by decide)
      refine ⟨hpass.closesDistinct, ?_, hpass.blocks_next.trans h⟩
      simp only [inside, isBehind_next, show t.isSymbol "=>" from ht, if_true]
    | binding kind =>
      have hequals : t.isSymbol "=" := ht
      have hpass : o.Passes [t] [] [] := passes_symbol hequals (by decide) (by decide)
      refine ⟨hpass.closesDistinct,
        isIntroduced_next_of_symbol hequals (by decide) (by decide), ?_, hpass.blocks_next.trans h⟩
      have harrow := Token.isSymbol_eq_false hequals "=>" (by decide)
      simp only [inside, isBehind_next, harrow, hequals, if_true]
      rfl
  | fields hb =>
    refine State.ofBody_keeps (hb.keepsBody typeGrammar_plain h) (fun _ hb => hb) ?_
    intro tree hdone
    refine ⟨hdone.1, hdone.2.trans ?_⟩
    simp [OpenModule.block, OpenModule.add, Declaration.name]
  | value hb =>
    refine State.ofBody_keeps (hb.keepsBody literalGrammar_plain h) (fun _ hb => hb) ?_
    intro tree hdone
    refine ⟨hdone.1, hdone.2.trans ?_⟩
    simp [OpenModule.block, OpenModule.add, Declaration.name]
  | reject => trivial

/-- A run that goes on has closed no block that repeats a name. -/
theorem Reads.follows {o : Outline} {s u : State} {ts : List Token} {ms : List Module}
    (h : Reads limit s ts ms u) (ho : o.Follows s) :
    (∀ b ∈ o.closed ts, b.Distinct) ∧ (o.after ts).Follows u := by
  induction h generalizing o with
  | nil => exact ⟨by simp [Outline.closed], ho⟩
  | @shift s u v t ts ms hs _ ih =>
    have hk := (State.step_move limit s t).keeps_follows ho
    rw [hs] at hk
    obtain ⟨hdistinct, hfollows⟩ := ih hk.2
    refine ⟨List.forall_mem_append.2 ⟨?_, hdistinct⟩, hfollows⟩
    exact fun b hb => hk.1 b (Option.mem_toList.1 hb)
  | @done s v t m ts ms hs _ ih =>
    have hk := (State.step_move limit s t).keeps_follows ho
    rw [hs] at hk
    obtain ⟨hdistinct, hfollows⟩ := ih hk.2
    refine ⟨List.forall_mem_append.2 ⟨?_, hdistinct⟩, hfollows⟩
    exact fun b hb => hk.1 b (Option.mem_toList.1 hb)

/-- Where a repeated name stops the machine, it is that of the first block to repeat one. -/
theorem Reads.reportsFirst {u : State} {t : Token} {pre post : List Token} {ms : List Module}
    {e : ParseError} (h : Reads limit .between pre ms u) (hs : u.step limit t = .fail e)
    (he : e.IsDuplicate) : ReportsFirst (pre ++ t :: post) e := by
  obtain ⟨hdistinct, hfollows⟩ := h.follows (o := .start) rfl
  have hk := (State.step_move limit u t).keeps_follows hfollows
  rw [hs] at hk
  obtain ⟨b, hb, hreports⟩ := hk he
  refine ⟨Outline.start.closed pre, b, ((Outline.start.after pre).next t).closed post, ?_,
    hdistinct, hreports⟩
  rw [blocksOf, Outline.closed_append, Outline.closed, show Outline.closes _ t = some b from hb]
  rfl

theorem ReportsFirst.append {ts : List Token} {e : ParseError} (h : ReportsFirst ts e)
    (us : List Token) : ReportsFirst (ts ++ us) e := by
  obtain ⟨earlier, b, later, hblocks, hdistinct, hreports⟩ := h
  refine ⟨earlier, b, later ++ (Outline.start.after ts).closed us, ?_, hdistinct, hreports⟩
  rw [blocksOf, Outline.closed_append, ← blocksOf, hblocks, List.append_assoc, List.cons_append]

/-- The repeated name that a run fails with. -/
theorem run_reportsFirst {p : Position} {ts : List Token} {e : ParseError}
    (h : (State.between.run limit p ts).result = .error e) (he : e.IsDuplicate) :
    ReportsFirst ts e := by
  rcases State.run_eq_error h with ⟨x, rfl⟩ | ⟨pre, t, post, ms, u, rfl, hr, hstep | ⟨-, rfl⟩⟩
  · simp [ParseError.IsDuplicate] at he
  · exact hr.reportsFirst hstep he
  · simp [ParseError.IsDuplicate] at he

/-- Tokens of a program with no more than so many objects within each other are read, or a
block of them repeats a name. -/
theorem run_of_derives {n : Nat} {p : Program} {q : Position} {ts : List Token}
    (h : Derives ts p) (hn : p.NestedWithin n) :
    (State.between.run (some n) q ts).result = .ok p ∨
      ¬ p.Distinct ∧ ∃ e, (State.between.run (some n) q ts).result = .error e ∧ e.IsDuplicate := by
  have hroom : ∀ m ∈ p.modules, ∀ l ∈ some n, ∀ d ∈ m.declarations, d.height ≤ l := by
    rintro m hm _ ⟨⟩
    exact hn m hm
  rcases readsUnless_modules h hroom with hr | ⟨hd, pre, t, post, ms, u, e, rfl, hr, hs, he⟩
  · refine .inl ?_
    rw [hr.run_of_between q]
    rfl
  · refine .inr ⟨hd, e, ?_, he⟩
    rw [hr.run_append, State.run, hs]
    rfl

end SchemaLang
