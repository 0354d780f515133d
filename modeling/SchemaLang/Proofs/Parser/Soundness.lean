import SchemaLang.Proofs.Parser.Leaves
import SchemaLang.Proofs.Parser.Reads

/-!
# What has been read is grammatical

`ReadBody` and `ReadState` say of a body and of a state which tokens have led to
it: the pieces that are complete are derived from the grammar, and the pieces that
are open have begun as the grammar begins them. Every move keeps this, so a run
without an error has read a program.
-/
namespace SchemaLang

open Grammar

variable {α : Type}

/-- What has been read of the innermost object that is open, from its brace on. -/
inductive Opened (leaf : List Token → α → Prop) : List Token → Place α → Prop where
  | entry {o : Token} {ts : List Token} {es : Entries α} :
      o.isSymbol "\x7b" → Listed leaf ts es.reverse → Opened leaf (o :: ts) (.entry es)
  | colon {o n : Token} {ts : List Token} {es : Entries α} {i : Ident} :
      o.isSymbol "\x7b" → Listed leaf ts es.reverse → Names n i →
      Opened leaf (o :: (ts ++ [n])) (.colon es i)
  | separator {o : Token} {ts us : List Token} {e : Ident × Tree Ident α} {es : Entries α} :
      o.isSymbol "\x7b" → Listed leaf ts es.reverse → Item leaf us e →
      Opened leaf (o :: (ts ++ us)) (.separator (e :: es))

/-- What has been read of the objects around a value, through the colon in front of it. -/
inductive Around (leaf : List Token → α → Prop) : List Token → List (Frame α) → Prop where
  | nil : Around leaf [] []
  | cons {ts us : List Token} {c : Token} {f : Frame α} {outer : List (Frame α)} :
      Around leaf ts outer → Opened leaf us (.colon f.entries f.key) → c.isSymbol ":" →
      Around leaf (ts ++ us ++ [c]) (f :: outer)

/-- What has been read of a body. If it is `bare`, a leaf alone may be the whole of it. -/
inductive ReadBody (g : LeafGrammar α) (bare : Prop) : List Token → Body α → Prop where
  | brace : ReadBody g bare [] ⟨.brace, []⟩
  | value {ts : List Token} {outer : List (Frame α)} :
      Around g.Spells ts outer → (outer = [] → bare) → ReadBody g bare ts ⟨.value, outer⟩
  | number {ts : List Token} {outer : List (Frame α)} {m : Token} :
      Around g.Spells ts outer → (outer = [] → bare) → g.signed → m.isSymbol "-" →
      ReadBody g bare (ts ++ [m]) ⟨.number m.position, outer⟩
  | opened {ts us : List Token} {place : Place α} {outer : List (Frame α)} :
      Around g.Spells ts outer → Opened g.Spells us place → ReadBody g bare (ts ++ us) ⟨place, outer⟩

/-- A value, and an object at that unless a leaf will do. -/
def Whole (leaf : List Token → α → Prop) (bare : Prop) (ts : List Token) (v : Tree Ident α) : Prop :=
  Value leaf ts v ∧ (bare ∨ ∃ es, v = .object es)

namespace Opened

variable {leaf : List Token → α → Prop}

/-- The closing brace makes an object of what has been read. -/
theorem close {ts : List Token} {place : Place α} {es : Entries α} {c : Token}
    (h : Opened leaf ts place) (hp : place = .entry es ∨ place = .separator es)
    (hc : c.isSymbol "\x7d") : Braced leaf (ts ++ [c]) es.reverse := by
  cases h with
  | @entry o ts es' ho hl =>
    obtain rfl : es' = es := by simpa using hp
    cases es' with
    | nil =>
      cases hl
      exact .empty ho hc
    | cons e es' =>
      obtain ⟨us, c', rfl, hi, hc'⟩ := hl.items_trailing (by simp)
      exact .items ho hi (.comma hc') hc
  | colon => simp at hp
  | @separator o ts us e es' ho hl he =>
    obtain rfl : e :: es' = es := by simpa using hp
    have hi := hl.items he
    rw [← List.reverse_cons] at hi
    simpa using Braced.items ho hi .absent hc

end Opened

variable {g : LeafGrammar α} {bare : Prop} {limit : Option Nat}

/-- The value of an item, behind what has been read around it. -/
theorem complete_keeps_read {ts us : List Token} {outer : List (Frame α)} {v : Tree Ident α}
    (h : Around g.Spells ts outer) (hv : Value g.Spells us v)
    (hb : outer = [] → bare ∨ ∃ es, v = .object es) :
    (Body.complete v outer).Keeps (ReadBody g bare (ts ++ us)) (Whole g.Spells bare (ts ++ us))
      fun _ => True := by
  cases h with
  | nil => exact ⟨hv, hb rfl⟩
  | @cons ts vs c f outer ha ho hc =>
    obtain ⟨entries, key⟩ := f
    cases ho with
    | @colon o n ws _ _ hob hl hn =>
      have hi : Item g.Spells (n :: c :: us) (key, v) := .mk hn hc hv
      have hr : ReadBody g bare _ _ := .opened ha (.separator hob hl hi)
      simpa [Body.complete] using hr

theorem Body.Move.keeps_read {ts : List Token} {b : Body α} {t : Token}
    {v : Verdict (Body α) (Tree Ident α)} (hm : Body.Move g limit b t v)
    (h : ReadBody g bare ts b) :
    v.Keeps (ReadBody g bare (ts ++ [t])) (Whole g.Spells bare (ts ++ [t])) fun _ => True := by
  cases hm with
  | @opened place outer t hp ht =>
    have ha : Around g.Spells ts outer := by
      cases h with
      | brace => exact .nil
      | value ha => exact ha
      | number => simp at hp
      | opened _ ho => cases ho <;> simp at hp
    exact .opened ha (.entry ht .nil)
  | minus hs ht =>
    cases h with
    | value ha hb => exact .number ha hb hs ht
    | opened _ ho => cases ho
  | leaf hl =>
    cases h with
    | value ha hb =>
      exact complete_keeps_read ha (.leaf (.plain hl)) fun ho => .inl (hb ho)
    | opened _ ho => cases ho
  | negated hp hl =>
    cases h with
    | @number us outer m ha hb hs hm =>
      have hv : Value g.Spells [m, t] (.leaf _) := .leaf (.negated hs hm hp hl)
      rw [List.append_assoc]
      exact complete_keeps_read ha hv fun ho => .inl (hb ho)
    | opened _ ho => cases ho
  | @closed place es outer t hp ht hd =>
    cases h with
    | brace => simp at hp
    | value => simp at hp
    | number => simp at hp
    | opened ha ho =>
      rw [List.append_assoc]
      exact complete_keeps_read ha (.object (ho.close hp ht)) fun _ => .inr ⟨_, rfl⟩
  | key hk =>
    cases h with
    | opened ha ho =>
      cases ho with
      | entry hob hl =>
        rw [List.append_assoc]
        exact .opened ha (.colon hob hl (Token.ident?_eq_some_iff.1 hk))
  | colon ht =>
    cases h with
    | opened ha ho => exact .value (.cons ha ho ht) (by simp)
  | comma ht =>
    cases h with
    | opened ha ho =>
      cases ho with
      | @separator o vs us e es hob hl he =>
        have hl' := hl.snoc he ht
        rw [← List.reverse_cons] at hl'
        have hr : ReadBody g bare _ _ := .opened ha (.entry hob hl')
        simpa using hr
  | tooDeep => trivial
  | badLeaf => trivial
  | badNegated => trivial
  | repeated => trivial
  | reject => trivial

/-- The tokens in front of a declaration's body. -/
inductive Heads (form : Form) (i : Ident) : List Token → Prop where
  | mk {k n a : Token} :
      k.isKeyword form.keyword → Names n i → a.isSymbol form.sign → Heads form i [k, n, a]

/-- The tokens of a module that is open, declarations complete. -/
inductive ReadModule : List Token → OpenModule → Prop where
  | mk {k n o : Token} {ts : List Token} {m : OpenModule} :
      k.isKeyword "module" → Names n m.name → o.isSymbol "\x7b" →
      Many Declares ts m.declarations.reverse → ReadModule (k :: n :: o :: ts) m

/-- What has been read since the last module was complete. -/
inductive ReadState : List Token → State → Prop where
  | between : ReadState [] .between
  | moduleName {k : Token} : k.isKeyword "module" → ReadState [k] .moduleName
  | moduleBrace {k n : Token} {i : Ident} :
      k.isKeyword "module" → Names n i → ReadState [k, n] (.moduleBrace i)
  | declarations {ts : List Token} {m : OpenModule} :
      ReadModule ts m → ReadState ts (.declarations m)
  | declarationName {ts : List Token} {k : Token} {m : OpenModule} {form : Form} :
      ReadModule ts m → k.isKeyword form.keyword → ReadState (ts ++ [k]) (.declarationName m form)
  | sign {ts : List Token} {k n : Token} {m : OpenModule} {form : Form} {i : Ident} :
      ReadModule ts m → k.isKeyword form.keyword → Names n i →
      ReadState (ts ++ [k, n]) (.sign m form i)
  | fields {ts hs us : List Token} {m : OpenModule} {i : Ident} {b : Body TypeLeaf} :
      ReadModule ts m → Heads .type i hs → ReadBody typeGrammar False us b →
      ReadState (ts ++ (hs ++ us)) (.fields m i b)
  | value {ts hs us : List Token} {m : OpenModule} {kind : BindingKind} {i : Ident}
      {b : Body Scalar} :
      ReadModule ts m → Heads (.binding kind) i hs → ReadBody literalGrammar True us b →
      ReadState (ts ++ (hs ++ us)) (.value m kind i b)

theorem ReadModule.add {ts us : List Token} {m : OpenModule} {d : Declaration}
    (h : ReadModule ts m) (hd : Declares us d) : ReadModule (ts ++ us) (m.add d) := by
  cases h with
  | mk hk hn ho hds =>
    refine .mk hk hn ho ?_
    simpa [OpenModule.add] using hds.snoc hd

/-- The fields that a type is read with are those of an object. -/
theorem ReadModule.add_type {ts hs us : List Token} {m : OpenModule} {i : Ident} {tree : TypeRef}
    (h : ReadModule ts m) (hh : Heads .type i hs) (hw : Whole typeGrammar.Spells False us tree) :
    ReadModule (ts ++ (hs ++ us)) (m.add (.type i tree.entries)) := by
  obtain ⟨hv, hbare | ⟨es, rfl⟩⟩ := hw
  · exact hbare.elim
  · cases hh with
    | mk hk hn ha =>
      cases hv with
      | object hes =>
        rw [typeGrammar_spells] at hes
        exact h.add (.type hk hn ha hes)

theorem ReadModule.add_binding {ts hs us : List Token} {m : OpenModule} {kind : BindingKind}
    {i : Ident} {tree : Tree Ident Scalar} (h : ReadModule ts m) (hh : Heads (.binding kind) i hs)
    (hw : Whole literalGrammar.Spells True us tree) :
    ReadModule (ts ++ (hs ++ us)) (m.add (.binding kind i (tree.mapKeys (·.name)))) := by
  obtain ⟨hv, -⟩ := hw
  cases hh with
  | mk hk hn ha =>
    rw [literalGrammar_spells] at hv
    exact h.add (.binding hk hn ha hv)

theorem OpenModule.close_eq_ok {m : OpenModule} {r : Module} (h : m.close = .ok r) :
    r = ⟨m.name, m.declarations.reverse⟩ ∧
      duplicate? .declaration (m.declarations.reverse.map (·.name)) = none := by
  unfold close at h
  split at h
  · simp at h
  · next hd => exact ⟨(Except.ok.inj h).symm, hd⟩

theorem Form.keyword_of_ofToken? {t : Token} {form : Form} (h : Form.ofToken? t = some form) :
    t.isKeyword form.keyword := by
  simpa using List.find?_some h

/-- A move keeps what has been read grammatical, or completes a module of the grammar. -/
theorem State.Move.keeps_read {ts : List Token} {s : State} {t : Token} {v : Verdict State Module}
    (hm : State.Move limit s t v) (h : ReadState ts s) :
    v.Keeps (ReadState (ts ++ [t])) (IsModule (ts ++ [t])) fun _ => True := by
  cases hm with
  | opensModule ht =>
    cases h with
    | between => exact .moduleName ht
  | namesModule ht =>
    cases h with
    | moduleName hk => exact .moduleBrace hk (Token.ident?_eq_some_iff.1 ht)
  | bracesModule ht =>
    cases h with
    | moduleBrace hk hn => exact .declarations (.mk hk hn ht .nil)
  | closesModule ht hc =>
    cases h with
    | declarations hread =>
      cases hread with
      | mk hk hn ho hds =>
        obtain ⟨rfl, -⟩ := OpenModule.close_eq_ok hc
        exact .mk hk hn ho hds ht
  | announces ht =>
    cases h with
    | declarations hread => exact .declarationName hread (Form.keyword_of_ofToken? ht)
  | namesDeclaration ht =>
    cases h with
    | declarationName hread hk =>
      simpa using ReadState.sign hread hk (Token.ident?_eq_some_iff.1 ht)
  | @signs t m form i ht =>
    cases h with
    | sign hread hk hn =>
      cases form with
      | type => simpa [bodyOf, Body.ofBrace] using ReadState.fields hread (.mk hk hn ht) .brace
      | binding kind =>
        simpa [bodyOf, Body.ofValue] using
          ReadState.value hread (.mk hk hn ht) (.value .nil fun _ => trivial)
  | fields hb =>
    cases h with
    | fields hread hh hus =>
      refine State.ofBody_keeps (hb.keeps_read hus) ?_ ?_
      · intro b' hb'
        simpa using ReadState.fields hread hh hb'
      · intro tree hw
        simpa using ReadState.declarations (hread.add_type hh hw)
  | value hb =>
    cases h with
    | value hread hh hus =>
      refine State.ofBody_keeps (hb.keeps_read hus) ?_ ?_
      · intro b' hb'
        simpa using ReadState.value hread hh hb'
      · intro tree hw
        simpa using ReadState.declarations (hread.add_binding hh hw)
  | repeated => trivial
  | reject => trivial

end SchemaLang
