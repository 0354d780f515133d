import SchemaLang.Proofs.Lexer.Quoting
import SchemaLang.Proofs.Numeral.Integer
import SchemaLang.Proofs.Source.Tokenized

/-!
# Every well-formed program has a text

A text is put together from loose pieces, whose lexemes and gaps are right in front
of anything: a blank behind every lexeme sees to that, except that a minus sign has
to touch its number. `Writable` says that there are such pieces for a part of a
program; their tokens depend on where the pieces are put, but what the grammar makes
of them only in its places.
-/
namespace SchemaLang

open Grammar Lexical

variable {α β γ μ : Type}

namespace Lexical

/-- The piece is right in front of any text. -/
def Piece.Loose (q : Piece) : Prop :=
  ∀ rest, Lexeme q.kind q.lexeme (q.gap ++ rest) ∧ Gap q.gap rest

theorem wellCut_of_loose {ps : List Piece} (h : ∀ q ∈ ps, q.Loose) : WellCut ps := by
  induction ps with
  | nil => exact .nil
  | cons q ps ih =>
    obtain ⟨hq, hps⟩ := List.forall_mem_cons.1 h
    exact .cons (hq _).1 (hq _).2 (ih hps)

/-- A lexeme with a blank behind it. -/
def Piece.spaced (kind : TokenKind) (lexeme : List Char) : Piece := ⟨kind, lexeme, [' ']⟩

theorem isWord_of_all {c : Char} {cs : List Char} (hc : c.isAlpha) (hcs : cs.all isWordChar) :
    IsWord (c :: cs) :=
  .mk hc (List.all_eq_true.1 hcs)

namespace Piece

theorem loose_spaced {kind : TokenKind} {l : List Char}
    (h : ∀ rest, Lexeme kind l (' ' :: rest)) : (spaced kind l).Loose := by
  intro rest
  have hblank : isBlank ' ' := by decide
  exact ⟨h rest, .blank hblank .nil⟩

theorem loose_word {kind : TokenKind} {w : List Char} (hw : IsWord w)
    (hk : WordClass (String.ofList w) kind) : (spaced kind w).Loose := by
  apply loose_spaced
  intro rest
  have hend : ∀ c ∈ (' ' :: rest).head?, isWordChar c = false := by
    rintro c ⟨⟩
    decide
  exact .word hw hk hend

theorem loose_integer {ds : List Char} (hd : IsDigits ds) : (spaced .integer ds).Loose := by
  apply loose_spaced
  intro rest
  have hend : ∀ c ∈ (' ' :: rest).head?, c.isDigit = false ∧ c ≠ '.' := by
    rintro c ⟨⟩
    decide
  exact .integer hd hend

theorem loose_float {ds fs : List Char} (hd : IsDigits ds) (hf : IsDigits fs) :
    (spaced .float (ds ++ '.' :: fs)).Loose := by
  apply loose_spaced
  intro rest
  have hend : ∀ c ∈ (' ' :: rest).head?, c.isDigit = false := by
    rintro c ⟨⟩
    decide
  exact .float hd hf hend

theorem loose_string {body : List Char} (hb : StringBody body) :
    (spaced .string ('"' :: (body ++ ['"']))).Loose :=
  loose_spaced fun _ => .string hb

theorem loose_equals : (spaced .symbol ['=']).Loose := by
  apply loose_spaced
  intro rest
  have hend : ∀ c ∈ (' ' :: rest).head?, c ≠ '>' := by
    rintro c ⟨⟩
    decide
  exact .equals hend

theorem loose_arrow : (spaced .symbol ['=', '>']).Loose := loose_spaced fun _ => .arrow

theorem loose_punctuation {c : Char} (h : c ∈ ['{', '}', '(', ')', ':', '.', ',', '-']) :
    (spaced .symbol [c]).Loose :=
  loose_spaced fun _ => .punctuation h

theorem loose_openBrace : (spaced .symbol ['{']).Loose := loose_punctuation (by decide)

theorem loose_closeBrace : (spaced .symbol ['}']).Loose := loose_punctuation (by decide)

/-- A minus sign with nothing behind it. -/
def minus : Piece := ⟨.symbol, ['-'], []⟩

theorem loose_minus : minus.Loose := by
  intro rest
  have hmem : '-' ∈ ['{', '}', '(', ')', ':', '.', ',', '-'] := by decide
  exact ⟨.punctuation hmem, .nil⟩

end Piece

end Lexical

/-- Wherever certain loose pieces are put, they spell something that `f` takes to `c`. -/
def Writable (piece : List Token → β → Prop) (f : β → γ) (c : γ) : Prop :=
  ∃ ps : List Piece, (∀ q ∈ ps, q.Loose) ∧ ∀ p, ∃ b, piece (placed p ps) b ∧ f b = c

namespace Writable

variable {piece : List Token → β → Prop} {f : β → γ}

/-- The same pieces spell what is made of the thing they spell. -/
theorem imp {β' γ' : Type} {piece' : List Token → β' → Prop} {f' : β' → γ'} {c : γ} {c' : γ'}
    (h : Writable piece f c) (make : β → β') (hp : ∀ ts b, piece ts b → piece' ts (make b))
    (hf : ∀ b, f b = c → f' (make b) = c') : Writable piece' f' c' := by
  obtain ⟨ps, hps, hb⟩ := h
  have hb' : ∀ p, ∃ b', piece' (placed p ps) b' ∧ f' b' = c' := by
    intro p
    obtain ⟨b, hpiece, he⟩ := hb p
    exact ⟨make b, hp _ _ hpiece, hf b he⟩
  exact ⟨ps, hps, hb'⟩

theorem many {cs : List γ} (h : ∀ c ∈ cs, Writable piece f c) :
    Writable (Many piece) (List.map f) cs := by
  induction cs with
  | nil => exact ⟨[], by simp, fun p => ⟨[], .nil, rfl⟩⟩
  | cons c cs ih =>
    obtain ⟨⟨ps, hps, hb⟩, hcs⟩ := List.forall_mem_cons.1 h
    obtain ⟨qs, hqs, hbs⟩ := ih hcs
    have hall : ∀ p, ∃ ds, Many piece (placed p (ps ++ qs)) ds ∧ ds.map f = c :: cs := by
      intro p
      obtain ⟨b, hb', rfl⟩ := hb p
      obtain ⟨bs, hbs', rfl⟩ := hbs (p.after (textOf ps))
      rw [placed_append]
      exact ⟨b :: bs, .cons hb' hbs', rfl⟩
    exact ⟨ps ++ qs, List.forall_mem_append.2 ⟨hps, hqs⟩, hall⟩

end Writable

section Leaves

theorem isWord_primitive (type : Primitive) : IsWord type.name.toList := by
  cases type with
  | number => exact isWord_of_all (by decide) (by decide)
  | string => exact isWord_of_all (by decide) (by decide)
  | boolean => exact isWord_of_all (by decide) (by decide)

theorem loose_primitive (type : Primitive) : (Piece.spaced .typeName type.name.toList).Loose := by
  have hclass : WordClass (String.ofList type.name.toList) .typeName := by
    rw [String.ofList_toList]
    exact .typeName (by cases type <;> decide)
  exact Piece.loose_word (isWord_primitive type) hclass

theorem loose_name {name : String} (h : IsName name) :
    (Piece.spaced .identifier name.toList).Loose := by
  obtain ⟨hw, hk⟩ := h
  rw [← String.ofList_toList (s := name)] at hk
  exact Piece.loose_word hw hk

theorem loose_boolean (b : Bool) : (Piece.spaced .boolean (toString b).toList).Loose := by
  cases b with
  | true => exact Piece.loose_word (isWord_of_all (by decide) (by decide)) (.boolean (by decide))
  | false => exact Piece.loose_word (isWord_of_all (by decide) (by decide)) (.boolean (by decide))

theorem writable_typeText {a : TypeLeaf} (h : a.Spellable) :
    Writable TypeText (TypeLeaf.mapPositions fun _ => .start)
      (a.mapPositions fun _ => .start) := by
  cases a with
  | primitive type =>
    have hloose := loose_primitive type
    have hspells : ∀ p, TypeText (placed p [.spaced .typeName type.name.toList]) (.primitive type) :=
      fun p => .primitive rfl String.ofList_toList
    exact ⟨[_], List.forall_mem_singleton.2 hloose, fun p => ⟨_, hspells p, rfl⟩⟩
  | named i =>
    have hloose := loose_name h
    have hspells : ∀ p, TypeText (placed p [.spaced .identifier i.name.toList])
        (.named ⟨i.name, p⟩) := by
      intro p
      exact .named ⟨rfl, by simp [Piece.spaced]⟩
    exact ⟨[_], List.forall_mem_singleton.2 hloose, fun p => ⟨_, hspells p, rfl⟩⟩

/-- A numeral, where a minus sign in front has to touch it. -/
theorem exists_numberText {kind : TokenKind} {l : List Char} (hl : (Piece.spaced kind l).Loose)
    (negative : Bool) :
    ∃ ps : List Piece, (∀ q ∈ ps, q.Loose) ∧
      ∀ p, NumberText (placed p ps) kind (String.ofList (if negative then '-' :: l else l)) := by
  cases negative with
  | false => exact ⟨[.spaced kind l], List.forall_mem_singleton.2 hl, fun p => .plain⟩
  | true =>
    -- without a blank between, the number stands one column behind the sign
    have hloose : ∀ q ∈ [.minus, .spaced kind l], Piece.Loose q := by
      rw [List.forall_mem_cons, List.forall_mem_singleton]
      exact ⟨Piece.loose_minus, hl⟩
    have htext : String.ofList ('-' :: l) = "-" ++ String.ofList l := by
      rw [← String.toList_inj]
      simp
    rw [if_pos rfl, htext]
    exact ⟨_, hloose, fun p => .negated rfl rfl⟩

theorem writable_scalarText {v : Scalar} (h : v.Spellable) : Writable ScalarText id v := by
  cases v with
  | integer n =>
    have hloose := Piece.loose_integer (Numeral.isDigits_toDigits n.toInt.natAbs)
    obtain ⟨ps, hps, hn⟩ := exists_numberText hloose (decide (n.toInt < 0))
    have hvalue := Numeral.int64?_toDigits n
    simp only [decide_eq_true_eq] at hn
    exact ⟨ps, hps, fun p => ⟨_, .integer (hn p) hvalue, rfl⟩⟩
  | float x =>
    obtain ⟨cs, hcs, hx⟩ := h
    cases hcs with
    | plain hd hf =>
      obtain ⟨ps, hps, hn⟩ := exists_numberText (Piece.loose_float hd hf) false
      exact ⟨ps, hps, fun p => ⟨_, .float (hn p) hx, rfl⟩⟩
    | negated hd hf =>
      obtain ⟨ps, hps, hn⟩ := exists_numberText (Piece.loose_float hd hf) true
      exact ⟨ps, hps, fun p => ⟨_, .float (hn p) hx, rfl⟩⟩
  | string text =>
    have hloose := Piece.loose_string (Quoted.body_write text.toList)
    have hvalue := Token.stringValue?_write text.toList
    simp only [String.ofList_toList] at hvalue
    have hscalar : ∀ p, Scalar.string (Option.getD (Token.stringValue?
        ⟨.string, String.ofList ('"' :: (Quoted.write text.toList ++ ['"'])), p⟩) "") =
          .string text := by
      intro p
      rw [hvalue p]
      rfl
    exact ⟨[_], List.forall_mem_singleton.2 hloose, fun p => ⟨_, .string rfl, hscalar p⟩⟩
  | boolean b =>
    have hloose := loose_boolean b
    have hscalar : Scalar.boolean (String.ofList (toString b).toList = "true") = .boolean b := by
      cases b <;> rfl
    exact ⟨[_], List.forall_mem_singleton.2 hloose, fun p => ⟨_, .boolean rfl, hscalar⟩⟩

end Leaves

section Trees

variable {leaf : List Token → α → Prop} {f : Ident → μ} {g : α → γ}

theorem writable_item {k : μ} {t : Tree μ γ} (hk : ∃ name, IsName name ∧ ∀ p, f ⟨name, p⟩ = k)
    (ht : Writable (Value leaf) (Tree.map f g) t) :
    Writable (Item leaf) (Prod.map f (Tree.map f g)) (k, t) := by
  obtain ⟨name, hname, hf⟩ := hk
  obtain ⟨ps, hps, hv⟩ := ht
  have hloose : ∀ q ∈ .spaced .identifier name.toList :: .spaced .symbol [':'] :: ps,
      Piece.Loose q := by
    rw [List.forall_mem_cons, List.forall_mem_cons]
    exact ⟨loose_name hname, Piece.loose_punctuation (by decide), hps⟩
  have hspells : ∀ p, ∃ e, Item leaf
      (placed p (.spaced .identifier name.toList :: .spaced .symbol [':'] :: ps)) e ∧
        Prod.map f (Tree.map f g) e = (k, t) := by
    intro p
    rw [placed, placed]
    -- the value is spelled wherever it begins
    generalize Position.after (Position.after p _) _ = p'
    obtain ⟨v, hv', rfl⟩ := hv p'
    have hnames : Names ⟨.identifier, String.ofList name.toList, p⟩ ⟨name, p⟩ :=
      ⟨rfl, by rw [String.ofList_toList]⟩
    exact ⟨(⟨name, p⟩, v), .mk hnames rfl hv', by rw [Prod.map_apply, hf]⟩
  exact ⟨_, hloose, hspells⟩

/-- Items with commas between, the last without. -/
theorem writable_items {es : List (μ × Tree μ γ)} (hne : es ≠ [])
    (h : ∀ e ∈ es, Writable (Item leaf) (Prod.map f (Tree.map f g)) e) :
    Writable (Items leaf) (List.map (Prod.map f (Tree.map f g))) es := by
  induction es with
  | nil => exact absurd rfl hne
  | cons e es ih =>
    obtain ⟨he, hes⟩ := List.forall_mem_cons.1 h
    by_cases hnil : es = []
    · subst hnil
      exact he.imp (fun d => [d]) (fun _ _ => .one) fun d hd => congrArg (fun e => [e]) hd
    · obtain ⟨ps, hps, hi⟩ := he
      obtain ⟨qs, hqs, his⟩ := ih hnil hes
      have hloose : ∀ q ∈ ps ++ .spaced .symbol [','] :: qs, Piece.Loose q := by
        rw [List.forall_mem_append, List.forall_mem_cons]
        exact ⟨hps, Piece.loose_punctuation (by decide), hqs⟩
      have hspells : ∀ p, ∃ ds, Items leaf (placed p (ps ++ .spaced .symbol [','] :: qs)) ds ∧
          ds.map (Prod.map f (Tree.map f g)) = e :: es := by
        intro p
        rw [placed_append, placed]
        generalize Position.after (Position.after p _) _ = p'
        obtain ⟨d, hd, rfl⟩ := hi p
        obtain ⟨ds, hds, rfl⟩ := his p'
        exact ⟨d :: ds, .more hd rfl hds, rfl⟩
      exact ⟨_, hloose, hspells⟩

theorem writable_braced {es : List (μ × Tree μ γ)}
    (h : ∀ e ∈ es, Writable (Item leaf) (Prod.map f (Tree.map f g)) e) :
    Writable (Braced leaf) (List.map (Prod.map f (Tree.map f g))) es := by
  by_cases hnil : es = []
  · subst hnil
    have hloose : ∀ q ∈ [.spaced .symbol ['{'], .spaced .symbol ['}']], Piece.Loose q := by
      rw [List.forall_mem_cons, List.forall_mem_singleton]
      exact ⟨Piece.loose_openBrace, Piece.loose_closeBrace⟩
    exact ⟨_, hloose, fun p => ⟨[], .empty rfl rfl, rfl⟩⟩
  · obtain ⟨ps, hps, hi⟩ := writable_items hnil h
    have hloose : ∀ q ∈ .spaced .symbol ['{'] :: (ps ++ [.spaced .symbol ['}']]),
        Piece.Loose q := by
      rw [List.forall_mem_cons, List.forall_mem_append, List.forall_mem_singleton]
      exact ⟨Piece.loose_openBrace, hps, Piece.loose_closeBrace⟩
    have hspells : ∀ p, ∃ ds, Braced leaf
        (placed p (.spaced .symbol ['{'] :: (ps ++ [.spaced .symbol ['}']]))) ds ∧
          ds.map (Prod.map f (Tree.map f g)) = es := by
      intro p
      rw [placed, placed_append]
      generalize Position.after p _ = p'
      obtain ⟨ds, hds, rfl⟩ := hi p'
      have hb := @Braced.items _ leaf ⟨.symbol, "\x7b", p⟩ ⟨.symbol, "\x7d", p'.after (textOf ps)⟩
        _ _ _ rfl hds .absent rfl
      rw [List.append_nil] at hb
      exact ⟨ds, hb, rfl⟩
    exact ⟨_, hloose, hspells⟩

/-- A tree is writable when its keys and its leaves are. -/
theorem writable_value {t : Tree μ γ}
    (h : t.All (fun k => ∃ name, IsName name ∧ ∀ p, f ⟨name, p⟩ = k) (Writable leaf g)) :
    Writable (Value leaf) (Tree.map f g) t := by
  induction t using Tree.ind with
  | leaf c =>
    have hleaf : Writable leaf g c := h
    exact hleaf.imp Tree.leaf (fun _ _ => .leaf) fun a ha => congrArg Tree.leaf ha
  | object es ih =>
    rw [Tree.all_object] at h
    have hitems : ∀ e ∈ es, Writable (Item leaf) (Prod.map f (Tree.map f g)) e :=
      fun e he => writable_item (h e he).1 (ih e he (h e he).2)
    exact (writable_braced hitems).imp Tree.object (fun _ _ => .object) fun ds hds =>
      (Tree.map_object f g ds).trans (congrArg Tree.object hds)

end Trees

section Programs

/-- A keyword, a name and a sign stand in front of the body of a declaration or a module. -/
theorem exists_heading {word sign : List Char} {name : String}
    (hw : (Piece.spaced .keyword word).Loose) (hn : IsName name)
    (hs : (Piece.spaced .symbol sign).Loose) :
    ∃ hs : List Piece, (∀ q ∈ hs, q.Loose) ∧ ∀ p qs, ∃ k n a p',
      placed p (hs ++ qs) = k :: n :: a :: placed p' qs ∧ k.isKeyword (String.ofList word) ∧
        Names n ⟨name, n.position⟩ ∧ a.isSymbol (String.ofList sign) := by
  have hloose : ∀ q ∈ [.spaced .keyword word, .spaced .identifier name.toList,
      .spaced .symbol sign], Piece.Loose q := by
    rw [List.forall_mem_cons, List.forall_mem_cons, List.forall_mem_singleton]
    exact ⟨hw, loose_name hn, hs⟩
  refine ⟨_, hloose, ?_⟩
  intro p qs
  refine ⟨_, _, _, _, rfl, ?_, ⟨rfl, ?_⟩, ?_⟩
  · simp [Piece.spaced, Token.isKeyword]
  · simp [Piece.spaced]
  · simp [Piece.spaced, Token.isSymbol]

theorem loose_keyword (form : Form) : (Piece.spaced .keyword form.keyword.toList).Loose := by
  rcases form with _ | (_ | _)
  · exact Piece.loose_word (isWord_of_all (by decide) (by decide)) (.keyword (by decide))
  · exact Piece.loose_word (isWord_of_all (by decide) (by decide)) (.keyword (by decide))
  · exact Piece.loose_word (isWord_of_all (by decide) (by decide)) (.keyword (by decide))

/-- The fields of a type, their places aside. -/
theorem writable_fields {fields : Fields}
    (h : (Tree.object fields).All (fun i => IsName i.name) TypeLeaf.Spellable) :
    Writable (Braced TypeText) (Fields.mapPositions fun _ => .start)
      (Fields.mapPositions (fun _ => .start) fields) := by
  have hall : (Tree.object (Fields.mapPositions (fun _ => .start) fields)).All
      (fun k => ∃ name, IsName name ∧ ∀ p, Ident.mapPositions (fun _ => .start) ⟨name, p⟩ = k)
      (Writable TypeText (TypeLeaf.mapPositions fun _ => .start)) := by
    rw [Fields.object_mapPositions, TypeRef.mapPositions, Tree.all_map]
    exact h.imp (fun i hi => ⟨i.name, hi, fun _ => rfl⟩) fun _ ha => writable_typeText ha
  rw [Tree.all_object] at hall
  exact writable_braced fun e he => writable_item (hall e he).1 (writable_value (hall e he).2)

theorem writable_literal {v : Literal} (h : v.All IsName Scalar.Spellable) :
    Writable (Value ScalarText) (Tree.mapKeys (·.name)) v :=
  writable_value (h.imp (fun k hk => ⟨k, hk, fun _ => rfl⟩) fun _ ha => writable_scalarText ha)

theorem writable_declaration {d : Declaration} (h : d.Spellable) :
    Writable Declares (Declaration.mapPositions fun _ => .start)
      (d.mapPositions fun _ => .start) := by
  cases d with
  | type i fields =>
    obtain ⟨hi, hfields⟩ := h
    obtain ⟨hs, hloose, hheading⟩ := exists_heading (loose_keyword .type) hi Piece.loose_arrow
    obtain ⟨ps, hps, hbody⟩ := writable_fields hfields
    refine ⟨hs ++ ps, List.forall_mem_append.2 ⟨hloose, hps⟩, ?_⟩
    intro p
    obtain ⟨k, n, a, p', he, hk, hn, ha⟩ := hheading p ps
    obtain ⟨es, hes, hfields'⟩ := hbody p'
    rw [String.ofList_toList] at hk
    rw [he]
    exact ⟨.type ⟨i.name, n.position⟩ es, .type hk hn ha hes, congrArg (Declaration.type _) hfields'⟩
  | binding kind i v =>
    obtain ⟨hi, hv⟩ := h
    obtain ⟨hs, hloose, hheading⟩ :=
      exists_heading (loose_keyword (.binding kind)) hi Piece.loose_equals
    obtain ⟨ps, hps, hbody⟩ := writable_literal hv
    refine ⟨hs ++ ps, List.forall_mem_append.2 ⟨hloose, hps⟩, ?_⟩
    intro p
    obtain ⟨k, n, a, p', he, hk, hn, ha⟩ := hheading p ps
    obtain ⟨w, hw, rfl⟩ := hbody p'
    rw [String.ofList_toList] at hk
    rw [he]
    exact ⟨.binding kind ⟨i.name, n.position⟩ (w.mapKeys (·.name)), .binding hk hn ha hw, rfl⟩

theorem writable_module {m : Module} (h : m.Spellable) :
    Writable IsModule (Module.mapPositions fun _ => .start) (m.mapPositions fun _ => .start) := by
  obtain ⟨hi, hds⟩ := h
  have hword : (Piece.spaced .keyword ['m', 'o', 'd', 'u', 'l', 'e']).Loose :=
    Piece.loose_word (isWord_of_all (by decide) (by decide)) (.keyword (by decide))
  have hdeclarations : Writable (Many Declares)
      (List.map (Declaration.mapPositions fun _ => .start))
      (m.declarations.map (Declaration.mapPositions fun _ => .start)) := by
    apply Writable.many
    rw [List.forall_mem_map]
    exact fun d hd => writable_declaration (hds d hd)
  obtain ⟨hs, hheads, hheading⟩ := exists_heading hword hi Piece.loose_openBrace
  obtain ⟨ps, hps, hbody⟩ := hdeclarations
  have hloose : ∀ q ∈ hs ++ (ps ++ [.spaced .symbol ['}']]), Piece.Loose q := by
    rw [List.forall_mem_append, List.forall_mem_append, List.forall_mem_singleton]
    exact ⟨hheads, hps, Piece.loose_closeBrace⟩
  refine ⟨_, hloose, ?_⟩
  intro p
  obtain ⟨k, n, a, p', he, hk, hn, ha⟩ := hheading p (ps ++ [.spaced .symbol ['}']])
  obtain ⟨ds, hds, hds'⟩ := hbody p'
  rw [he, placed_append]
  exact ⟨⟨⟨m.name.name, n.position⟩, ds⟩, .mk hk hn ha hds rfl, congrArg (Module.mk _) hds'⟩

/-- Every well-formed program is denoted by a text, up to its places. -/
theorem exists_source {p : Program} (h : p.WellFormed) :
    ∃ source q, parseSource source = .ok q ∧ q.erase = p.erase := by
  have hmodules : Writable (Many IsModule) (List.map (Module.mapPositions fun _ => .start))
      (p.modules.map (Module.mapPositions fun _ => .start)) := by
    apply Writable.many
    rw [List.forall_mem_map]
    exact fun m hm => writable_module (h.spellable m hm)
  obtain ⟨ps, hps, hspells⟩ := hmodules
  obtain ⟨ms, hms, he⟩ := hspells .start
  have herase : (⟨ms⟩ : Program).erase = p.erase := congrArg Program.mk he
  have htext : (⟨[], ps⟩ : Cutting).text = (String.ofList (textOf ps)).toList := by
    rw [String.toList_ofList]
    rfl
  have hcuts : Cutting.Cuts ⟨[], ps⟩ (String.ofList (textOf ps)).toList :=
    ⟨htext, .nil, wellCut_of_loose hps⟩
  have hrules : (⟨ms⟩ : Program).Distinct ∧ (⟨ms⟩ : Program).NestedWithin 128 :=
    ⟨(Program.distinct_of_erase_eq herase).2 h.distinct,
      (Program.nestedWithin_of_erase_eq herase 128).2 h.nested⟩
  exact ⟨_, ⟨ms⟩, (parseSource_of_cuts hcuts _).2 ⟨hms, hrules⟩, herase⟩

/-- The programs that texts denote are exactly the well-formed ones, whatever their places. -/
theorem exists_parseSource_iff_wellFormed (p : Program) :
    (∃ source q, parseSource source = .ok q ∧ q.erase = p.erase) ↔ p.WellFormed := by
  constructor
  · intro h
    obtain ⟨source, q, hq, he⟩ := h
    exact Program.wellFormed_of_erase_eq he.symm (wellFormed_of_parseSource hq)
  · exact exists_source

end Programs

end SchemaLang
