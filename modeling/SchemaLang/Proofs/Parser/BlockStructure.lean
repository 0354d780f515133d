import SchemaLang.Proofs.Parser.Blocks
import SchemaLang.Proofs.Parser.Grammar
import SchemaLang.Proofs.Parser.Leaves
import SchemaLang.Proofs.Program.Scopes

/-!
# The blocks of a program are its scopes

Where tokens spell a program, the blocks that are told from braces alone are the scopes
of the program, one by one. The induction is on derivations: `Outline.Passes` says of a
piece which scopes it closes and which names it adds to the block around it.
-/
namespace SchemaLang

open Grammar

variable {α : Type}

/-- The block without the places of its names. -/
def Block.spelling (b : Block) : Scope × List String := (b.scope, b.names.map (·.name))

theorem Block.distinct_iff_spelling (b : Block) : b.Distinct ↔ b.spelling.2.Nodup := Iff.rfl

namespace Outline

/-- What the innermost block holds, if one is open. -/
def scope? (o : Outline) : Option Scope := o.blocks.head?.map (·.scope)

/-- The tokens close the scopes and add the names to the innermost block. All blocks that they
open are closed again. -/
structure Passes (o : Outline) (ts : List Token) (scopes : List (Scope × List String))
    (names : List Ident) : Prop where
  closed : (o.closed ts).map Block.spelling = scopes
  blocks : (o.after ts).blocks = o.blocks.modifyHead (·.add names)

variable {o : Outline} {t : Token} {ts us : List Token} {i : Ident}
  {scopes scopes' : List (Scope × List String)} {names names' : List Ident}

@[simp] theorem modifyHead_add_nil (bs : List Block) : bs.modifyHead (·.add []) = bs := by
  cases bs <;> simp [Block.add]

theorem Passes.append (h : o.Passes ts scopes names)
    (h' : (o.after ts).Passes us scopes' names') :
    o.Passes (ts ++ us) (scopes ++ scopes') (names ++ names') where
  closed := by rw [closed_append, List.map_append, h.closed, h'.closed]
  blocks := by
    rw [after_append, h'.blocks, h.blocks, List.modifyHead_modifyHead]
    simp only [Block.add, Function.comp_def, List.append_assoc]

theorem Passes.scope? (h : o.Passes ts scopes names) : (o.after ts).scope? = o.scope? := by
  unfold Outline.scope?
  rw [h.blocks]
  cases o.blocks <;> rfl

theorem names_of_kind (o : Outline) (h : t.kind ≠ .identifier) : o.names t = [] := by
  simp [Outline.names, Token.ident?, h]

section Single

theorem passes_single (ho : t.isSymbol "\x7b" = false) (hc : t.isSymbol "\x7d" = false) :
    o.Passes [t] [] (o.names t) where
  closed := by simp [Outline.closed, closes, hc]
  blocks := by simp [Outline.next, ho, hc]

theorem passes_symbol {s : String} (h : t.isSymbol s) (ho : s ≠ "\x7b") (hc : s ≠ "\x7d") :
    o.Passes [t] [] [] := by
  have hk : t.kind ≠ .identifier := by simp [(Token.isSymbol_iff.1 h).1]
  have hpass := passes_single (o := o) (Token.isSymbol_eq_false h _ ho)
    (Token.isSymbol_eq_false h _ hc)
  rwa [o.names_of_kind hk] at hpass

/-- A token that is no symbol adds itself at most. -/
theorem passes_of_kind (h : t.kind ≠ .symbol) : o.Passes [t] [] (o.names t) :=
  passes_single (Token.isSymbol_eq_false_of_kind h _) (Token.isSymbol_eq_false_of_kind h _)

theorem passes_keyword {s : String} (h : t.isKeyword s) : o.Passes [t] [] [] := by
  have hk := (Token.isKeyword_iff.1 h).1
  have hpass := passes_of_kind (o := o) (t := t) (by simp [hk])
  rwa [o.names_of_kind (by simp [hk])] at hpass

theorem passes_name (hn : Names t i) (ho : o.isIntroduced) : o.Passes [t] [] [i] := by
  have hpass := passes_of_kind (o := o) (t := t) (by simp [hn.1])
  rwa [Outline.names, if_pos ho, Token.ident?_eq_some_iff.2 hn] at hpass

theorem passes_leaf (ho : o.isIntroduced = false) (h : t.kind ≠ .symbol) :
    o.Passes [t] [] [] := by
  have hpass := passes_of_kind (o := o) h
  rwa [Outline.names, ho, if_neg (by decide)] at hpass

end Single

theorem blocks_next_open (h : t.isSymbol "\x7b") :
    (o.next t).blocks = ⟨o.inside, []⟩ :: o.blocks := by
  simp [Outline.next, h]

theorem blocks_next_close (h : t.isSymbol "\x7d") : (o.next t).blocks = o.blocks.tail := by
  simp [Outline.next, h, Token.isSymbol_eq_false h "\x7b" (by decide)]

theorem closes_of_isSymbol (h : t.isSymbol "\x7d") : o.closes t = o.blocks.head? := if_pos h

/-- Braces make a block of what is between them. -/
theorem Passes.braces {a c : Token} (ha : a.isSymbol "\x7b") (hc : c.isSymbol "\x7d")
    (h : (o.next a).Passes ts scopes names) :
    o.Passes (a :: (ts ++ [c])) (scopes ++ [(o.inside, names.map (·.name))]) [] := by
  have hnot : o.closes a = none := by
    rw [closes, Token.isSymbol_eq_false ha _ (by decide), if_neg (by decide)]
  have hbefore : ((o.next a).after ts).blocks = ⟨o.inside, names⟩ :: o.blocks := by
    rw [h.blocks, blocks_next_open ha, List.modifyHead_cons]
    rfl
  constructor
  · simp only [Outline.closed, closed_append, hnot, closes_of_isSymbol hc, hbefore, List.map_append,
      h.closed, Option.toList_none, List.nil_append, List.append_nil, List.head?_cons,
      Option.toList_some, List.map_cons, List.map_nil, Block.spelling]
  · rw [after_cons, after_append, after_cons, after_nil, modifyHead_add_nil, blocks_next_close hc,
      hbefore, List.tail_cons]

theorem isIntroduced_next (h : t.introduces) : (o.next t).isIntroduced := by
  simpa [isIntroduced, Outline.next] using h

theorem isIntroduced_next_of_symbol {s : String} (h : t.isSymbol s) (ho : s ≠ "\x7b")
    (hc : s ≠ ",") : (o.next t).isIntroduced = false := by
  have hk : ∀ s, t.isKeyword s = false := by
    intro s
    simp [Token.isKeyword, (Token.isSymbol_iff.1 h).1]
  simp [isIntroduced, Outline.next, Token.introduces, hk, Token.isSymbol_eq_false h _ ho,
    Token.isSymbol_eq_false h _ hc]

theorem isBehind_next (o : Outline) (t : Token) (s : String) :
    (o.next t).isBehind s = t.isSymbol s := rfl

/-- Behind a colon a brace opens a block of the sort around it. -/
theorem inside_next_colon (h : t.isSymbol ":") :
    (o.next t).inside = o.scope?.getD .declaration := by
  have hblocks : (o.next t).scope? = o.scope? := (passes_symbol h (by decide) (by decide)).scope?
  simp only [inside, isBehind_next, Token.isSymbol_eq_false h _ (show ":" ≠ "=>" by decide),
    Token.isSymbol_eq_false h _ (show ":" ≠ "=" by decide)]
  exact congrArg (·.getD .declaration) hblocks

end Outline

section Bodies

variable {leaf : List Token → α → Prop} {scope : Scope}

/-- The tokens of a leaf close nothing, and where no name is due they are none. -/
def PassesLeaf (leaf : List Token → α → Prop) : Prop :=
  ∀ ts a (o : Outline), leaf ts a → o.isIntroduced = false → o.Passes ts [] []

theorem passesLeaf_typeText : PassesLeaf TypeText := by
  intro ts a o h ho
  cases h with
  | primitive hk _ => exact Outline.passes_leaf ho (by simp [hk])
  | named hn => exact Outline.passes_leaf ho (by simp [hn.1])

theorem passes_numberText {ts : List Token} {kind : TokenKind} {text : String} {o : Outline}
    (h : NumberText ts kind text) (hkind : kind ≠ .symbol) (ho : o.isIntroduced = false) :
    o.Passes ts [] [] := by
  cases h with
  | plain => exact Outline.passes_leaf ho hkind
  | @negated m t hm _ =>
    have hminus : o.Passes [m] [] [] := Outline.passes_symbol hm (by decide) (by decide)
    exact hminus.append
      (Outline.passes_leaf (Outline.isIntroduced_next_of_symbol hm (by decide) (by decide)) hkind)

theorem passesLeaf_scalarText : PassesLeaf ScalarText := by
  intro ts a o h ho
  cases h with
  | integer hn _ => exact passes_numberText hn (by decide) ho
  | float hn _ => exact passes_numberText hn (by decide) ho
  | string hk => exact Outline.passes_leaf ho (by simp [hk])
  | boolean hk => exact Outline.passes_leaf ho (by simp [hk])

-- One statement for each production. A value adds no name to the block around it, an item adds
-- its own, and the names of items are what the closing brace finds.
mutual

theorem passes_value (hleaf : PassesLeaf leaf) {ts : List Token} {v : Tree Ident α} {o : Outline}
    (h : Value leaf ts v) (ho : o.isIntroduced = false) (hinside : o.inside = scope) :
    o.Passes ts (v.scopes (·.name) scope) [] := by
  cases h with
  | leaf ha => exact hleaf _ _ _ ha ho
  | object hb => exact passes_braced hleaf hb hinside
termination_by (ts.length, 1)
decreasing_by all_goals (subst_vars; decreasing_tactic)

theorem passes_braced (hleaf : PassesLeaf leaf) {ts : List Token}
    {es : List (Ident × Tree Ident α)} {o : Outline} (h : Braced leaf ts es)
    (hinside : o.inside = scope) :
    o.Passes ts ((Tree.object es).scopes (·.name) scope) [] := by
  rw [Tree.scopes_object]
  cases h with
  | @empty a c ha hc =>
    have hnone : (o.next a).Passes [] [] [] := ⟨rfl, by simp⟩
    have hbraces := hnone.braces ha hc
    rwa [hinside] at hbraces
  | @items a c us tail _ ha hi htail hc =>
    have hscope : (o.next a).scope? = some scope := by
      rw [Outline.scope?, Outline.blocks_next_open ha, ← hinside]
      rfl
    have hintroduced : (o.next a).isIntroduced :=
      Outline.isIntroduced_next (by simp [Token.introduces, ha])
    have hitems := passes_items hleaf hi hintroduced hscope
    have htrailing : ((o.next a).after us).Passes tail [] [] := by
      cases htail with
      | absent => exact ⟨rfl, by simp⟩
      | comma hd => exact Outline.passes_symbol hd (by decide) (by decide)
    have hall := hitems.append htrailing
    simp only [List.append_nil] at hall
    have hbraces := hall.braces ha hc
    rwa [hinside, List.map_map] at hbraces
termination_by (ts.length, 0)
decreasing_by all_goals (subst_vars; decreasing_tactic)

theorem passes_items (hleaf : PassesLeaf leaf) {ts : List Token}
    {es : List (Ident × Tree Ident α)} {o : Outline} (h : Items leaf ts es) (ho : o.isIntroduced)
    (hscope : o.scope? = some scope) :
    o.Passes ts (es.flatMap fun e => e.2.scopes (·.name) scope) (es.map (·.1)) := by
  cases h with
  | one hi =>
    rw [List.flatMap_singleton]
    exact passes_item hleaf hi ho hscope
  | @more ts us c e es hi hc his =>
    have hitem := passes_item hleaf hi ho hscope
    have hcomma : (o.after ts).Passes [c] [] [] :=
      Outline.passes_symbol hc (by decide) (by decide)
    have hintroduced : ((o.after ts).next c).isIntroduced :=
      Outline.isIntroduced_next (by simp [Token.introduces, hc])
    have hrest := passes_items hleaf his hintroduced
      (hcomma.scope?.trans (hitem.scope?.trans hscope))
    exact hitem.append (hcomma.append hrest)
termination_by (ts.length, 1)
decreasing_by all_goals (subst_vars; decreasing_tactic)

theorem passes_item (hleaf : PassesLeaf leaf) {ts : List Token} {e : Ident × Tree Ident α}
    {o : Outline} (h : Item leaf ts e) (ho : o.isIntroduced) (hscope : o.scope? = some scope) :
    o.Passes ts (e.2.scopes (·.name) scope) [e.1] := by
  cases h with
  | @mk n c us i v hn hc hv =>
    have hname := Outline.passes_name hn ho
    have hcolon : (o.next n).Passes [c] [] [] :=
      Outline.passes_symbol hc (by decide) (by decide)
    have hinside : ((o.next n).next c).inside = scope := by
      rw [Outline.inside_next_colon hc, show (o.next n).scope? = o.scope? from hname.scope?, hscope]
      rfl
    have hvalue := passes_value hleaf hv
      (Outline.isIntroduced_next_of_symbol hc (by decide) (by decide)) hinside
    exact hname.append (hcolon.append hvalue)
termination_by (ts.length, 0)
decreasing_by all_goals (subst_vars; decreasing_tactic)

end

end Bodies

section Programs

/-- The keyword and the name in front of a declaration's sign. -/
theorem passes_head {o : Outline} {k n a : Token} {form word : String} {i : Ident}
    (hk : k.isKeyword word) (hword : word ∈ ["type", "const", "let"]) (hn : Names n i)
    (ha : a.isSymbol form) (ho : form ≠ "\x7b") (hc : form ≠ "\x7d") :
    o.Passes [k, n, a] [] [i] := by
  have hintroduces : k.introduces := by
    simp only [Token.introduces, Bool.or_eq_true, List.any_eq_true]
    exact .inr ⟨word, hword, hk⟩
  have hname := Outline.passes_name hn (Outline.isIntroduced_next (o := o) hintroduces)
  exact (Outline.passes_keyword hk).append (hname.append (Outline.passes_symbol ha ho hc))

theorem passes_declares {o : Outline} {ts : List Token} {d : Declaration} (h : Declares ts d) :
    o.Passes ts d.scopes [d.name] := by
  cases h with
  | @type k n a ts i fields hk hn ha hb =>
    have hhead : o.Passes [k, n, a] [] [i] :=
      passes_head hk (by decide) hn ha (by decide) (by decide)
    have hinside : (o.after [k, n, a]).inside = .field := by
      simp [Outline.inside, Outline.isBehind_next, ha]
    exact hhead.append (passes_braced passesLeaf_typeText hb hinside)
  | @binding k n a ts i kind v hk hn ha hv =>
    have hword : kind.keyword ∈ ["type", "const", "let"] := by cases kind <;> decide
    have hhead : o.Passes [k, n, a] [] [i] :=
      passes_head hk hword hn ha (by decide) (by decide)
    have hinside : (o.after [k, n, a]).inside = .key := by
      simp [Outline.inside, Outline.isBehind_next, ha,
        Token.isSymbol_eq_false ha _ (show "=" ≠ "=>" by decide)]
    rw [Declaration.scopes, Tree.scopes_mapKeys]
    exact hhead.append (passes_value passesLeaf_scalarText hv
      (Outline.isIntroduced_next_of_symbol ha (by decide) (by decide)) hinside)

theorem passes_declarations {o : Outline} {ts : List Token} {ds : List Declaration}
    (h : Many Declares ts ds) :
    o.Passes ts (ds.flatMap Declaration.scopes) (ds.map (·.name)) := by
  induction h generalizing o with
  | nil => exact ⟨rfl, by simp⟩
  | cons hd _ ih => exact (passes_declares hd).append ih

/-- A module leaves no block open and adds no name, as there is no block around it. -/
theorem passes_isModule {o : Outline} {ts : List Token} {m : Module} (h : IsModule ts m)
    (ho : o.blocks = []) : o.Passes ts m.scopes [] := by
  cases h with
  | @mk k n a c ts i ds hk hn ha hds hc =>
    have hname : (o.next k).Passes [n] [] ((o.next k).names n) :=
      Outline.passes_of_kind (by simp [hn.1])
    have hhead : o.Passes [k, n] [] ((o.next k).names n) :=
      (Outline.passes_keyword hk).append hname
    have hblocks : (o.after [k, n]).blocks = [] := by
      rw [hhead.blocks, ho]
      rfl
    have hinside : (o.after [k, n]).inside = .declaration := by
      have hsymbol : ∀ s, (o.after [k, n]).isBehind s = false := by
        intro s
        exact Token.isSymbol_eq_false_of_kind (by simp [hn.1]) s
      rw [Outline.inside, hsymbol, hsymbol, hblocks]
      rfl
    have hbraces := (passes_declarations (o := (o.after [k, n]).next a) hds).braces ha hc
    rw [hinside, List.map_map] at hbraces
    have hall := hhead.append hbraces
    refine ⟨hall.closed, ?_⟩
    have hafter := hall.blocks
    rw [ho] at hafter ⊢
    exact hafter

/-- Where tokens spell a program, their blocks are its scopes. -/
theorem blocksOf_of_derives {ts : List Token} {p : Program} (h : Derives ts p) :
    (blocksOf ts).map Block.spelling = p.scopes := by
  have hpasses : ∀ {ts ms} {o : Outline}, Many IsModule ts ms → o.blocks = [] →
      o.Passes ts (ms.flatMap Module.scopes) [] := by
    intro ts ms o hms
    induction hms generalizing o with
    | nil => exact fun _ => ⟨rfl, by simp⟩
    | @cons us vs m ms hm _ ih =>
      intro ho
      have hfirst := passes_isModule hm ho
      have hblocks : (o.after us).blocks = [] := by
        rw [hfirst.blocks, ho]
        rfl
      exact hfirst.append (ih hblocks)
  exact (hpasses h rfl).closed

theorem distinct_iff_blocksOf {ts : List Token} {p : Program} (h : Derives ts p) :
    p.Distinct ↔ ∀ b ∈ blocksOf ts, b.Distinct := by
  rw [p.distinct_iff_scopes, ← blocksOf_of_derives h, List.forall_mem_map]
  exact forall₂_congr fun b _ => b.distinct_iff_spelling.symm

end Programs

end SchemaLang
