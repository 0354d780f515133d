import SchemaLang.Proofs.Parser.RuleInvariant

/-!
# What is grammatical can be read

The induction is on derivations: a value is read from any place where a value is
due, within any objects that are open and leave room for it, unless a repeated name
stops the machine at a closing brace (`ReadsUnless`). Which kind of declaration is
around makes no difference, so the statements are about a `Host`.
-/
namespace SchemaLang

open Grammar

variable {α : Type} {limit : Option Nat}

/-- From the state the tokens lead to a repeated name. -/
def Repeats (limit : Option Nat) (s : State) (ts : List Token) : Prop :=
  ∃ pre t post ms u e, ts = pre ++ t :: post ∧ Reads limit s pre ms u ∧
    u.step limit t = .fail e ∧ e.IsDuplicate

/-- The machine takes all of the tokens, unless a name is repeated and stops it before. -/
def ReadsUnless (repeated : Prop) (limit : Option Nat) (s : State) (ts : List Token)
    (ms : List Module) (u : State) : Prop :=
  Reads limit s ts ms u ∨ repeated ∧ Repeats limit s ts

namespace ReadsUnless

variable {P Q : Prop} {s u v : State} {t : Token} {ts us : List Token}
  {ms ns : List Module}

theorem imp (h : ReadsUnless P limit s ts ms u) (h' : P → Q) :
    ReadsUnless Q limit s ts ms u :=
  Or.imp id (And.imp h' id) h

theorem append (h : ReadsUnless P limit s ts ms u)
    (h' : ReadsUnless P limit u us ns v) :
    ReadsUnless P limit s (ts ++ us) (ms ++ ns) v := by
  rcases h with h | ⟨hp, pre, t, post, ms', w, e, rfl, hreads, hstep, he⟩
  · rcases h' with h' | ⟨hp, pre, t, post, ms', w, e, rfl, hreads, hstep, he⟩
    · exact .inl (h.append h')
    · exact .inr ⟨hp, ts ++ pre, t, post, ms ++ ms', w, e, by simp, h.append hreads, hstep, he⟩
  · exact .inr ⟨hp, pre, t, post ++ us, ms', w, e, by simp, hreads, hstep, he⟩

/-- Two stretches within one module. -/
theorem trans (h : ReadsUnless P limit s ts [] u)
    (h' : ReadsUnless P limit u us [] v) : ReadsUnless P limit s (ts ++ us) [] v :=
  h.append h'

theorem shift (hs : s.step limit t = .shift u) (h : ReadsUnless P limit u ts ms v) :
    ReadsUnless P limit s (t :: ts) ms v :=
  append (.inl (.one hs)) h

/-- The machine stops at a token that brings a repeated name to light. -/
theorem stop {e : ParseError} (hp : P) (hs : s.step limit t = .fail e)
    (he : e.IsDuplicate) : ReadsUnless P limit s [t] ms u :=
  .inr ⟨hp, [], t, [], [], s, e, rfl, .nil, hs, he⟩

end ReadsUnless

/-- A declaration whose body is being read: how the machine holds the body, and what it makes
of the tree. No leaf of the body is a symbol. -/
structure Host (limit : Option Nat) (g : LeafGrammar α) where
  openModule : OpenModule
  resume : Body α → State
  declare : Tree Ident α → Declaration
  step : ∀ b t, (resume b).step limit t = State.ofBody openModule resume declare (b.step g limit t)
  expected : ∀ b, (resume b).expected = b.place.expected g
  atEnd : ∀ b p, (resume b).atEnd p = some (.unexpectedEnd (resume b).expected p)
  leaf?_symbol : ∀ t, t.kind = .symbol → g.leaf? t = none

namespace Host

def ofType (limit : Option Nat) (m : OpenModule) (i : Ident) : Host limit typeGrammar where
  openModule := m
  resume := .fields m i
  declare := fun tree => .type i tree.entries
  step _ _ := rfl
  expected _ := rfl
  atEnd _ _ := rfl
  leaf?_symbol _ h := typeGrammar_leaf?_symbol h

def ofBinding (limit : Option Nat) (m : OpenModule) (kind : BindingKind) (i : Ident) :
    Host limit literalGrammar where
  openModule := m
  resume := .value m kind i
  declare := fun tree => .binding kind i (tree.mapKeys (·.name))
  step _ _ := rfl
  expected _ := rfl
  atEnd _ _ := rfl
  leaf?_symbol _ h := literalGrammar_leaf?_symbol h

variable {g : LeafGrammar α}

/-- Where the machine is when a value is complete. -/
def after (h : Host limit g) (v : Tree Ident α) : List (Frame α) → State
  | [] => .declarations (h.openModule.add (h.declare v))
  | f :: outer => h.resume ⟨.separator ((f.key, v) :: f.entries), outer⟩

theorem step_complete (h : Host limit g) {b : Body α} {t : Token} {v : Tree Ident α}
    {outer : List (Frame α)} (hb : b.step g limit t = Body.complete v outer) :
    (h.resume b).step limit t = .shift (h.after v outer) := by
  rw [h.step, hb]
  cases outer <;> rfl

theorem step_shift (h : Host limit g) {b b' : Body α} {t : Token}
    (hb : b.step g limit t = .shift b') : (h.resume b).step limit t = .shift (h.resume b') := by
  rw [h.step, hb]
  rfl

theorem step_fail (h : Host limit g) {b : Body α} {t : Token} {e : ParseError}
    (hb : b.step g limit t = .fail e) : (h.resume b).step limit t = .fail e := by
  rw [h.step, hb]
  rfl

end Host

namespace Body

variable {g : LeafGrammar α} {outer : List (Frame α)} {t : Token}

theorem step_open {place : Place α} (hp : place = .brace ∨ place = .value)
    (ht : t.isSymbol "\x7b") (hroom : ∀ n ∈ limit, outer.length < n) :
    step g limit ⟨place, outer⟩ t = .shift ⟨.entry [], outer⟩ := by
  have ho : openObject limit t.position outer = .shift ⟨.entry [], outer⟩ := by
    have hf : limit.filter (· ≤ outer.length) = none := by
      rw [Option.filter_eq_none_iff]
      intro n hn
      simpa using hroom n hn
    simp [openObject, hf]
  rcases hp with rfl | rfl <;> simp [step, ht, ho]

theorem step_close {place : Place α} {es : Entries α}
    (hp : place = .entry es ∨ place = .separator es) (ht : t.isSymbol "\x7d") :
    step g limit ⟨place, outer⟩ t = closeObject g es outer := by
  rcases hp with rfl | rfl <;> simp [step, ht]

theorem step_key {es : Entries α} {i : Ident} (hn : Names t i) :
    step g limit ⟨.entry es, outer⟩ t = .shift ⟨.colon es i, outer⟩ := by
  have hs : t.isSymbol "\x7d" = false := Token.isSymbol_eq_false_of_kind (by simp [hn.1]) _
  simp [step, hs, Token.ident?_eq_some_iff.2 hn]

theorem step_colon {es : Entries α} {i : Ident} (ht : t.isSymbol ":") :
    step g limit ⟨.colon es i, outer⟩ t = .shift ⟨.value, ⟨es, i⟩ :: outer⟩ := by
  simp [step, ht]

theorem step_comma {es : Entries α} (ht : t.isSymbol ",") :
    step g limit ⟨.separator es, outer⟩ t = .shift ⟨.entry es, outer⟩ := by
  simp [step, ht, Token.isSymbol_eq_false ht "\x7d" (by decide)]

theorem step_minus (hs : g.signed) (ht : t.isSymbol "-") :
    step g limit ⟨.value, outer⟩ t = .shift ⟨.number t.position, outer⟩ := by
  simp [step, ht, hs, Token.isSymbol_eq_false ht "\x7b" (by decide)]

theorem step_leaf {a : α} (hg : ∀ t, t.kind = .symbol → g.leaf? t = none)
    (hl : g.leaf? t = some (.ok a)) :
    step g limit ⟨.value, outer⟩ t = complete (.leaf a) outer := by
  have hk : t.kind ≠ .symbol := by
    intro hk
    simp [hg t hk] at hl
  simp [step, Token.isSymbol_eq_false_of_kind hk, hl, completeLeaf]

theorem step_negated {m : Position} {a : α} (hp : t.position = m.next)
    (hl : g.negated? m t = some (.ok a)) :
    step g limit ⟨.number m, outer⟩ t = complete (.leaf a) outer := by
  simp [step, hp, hl, completeLeaf]

end Body

section

variable {g : LeafGrammar α} (host : Host limit g)

/-- The brace closes the object that the place is in, or brings the error of a repeated name. -/
theorem Host.step_close {place : Place α} {es : Entries α} {t : Token}
    (hp : place = .entry es ∨ place = .separator es) (ht : t.isSymbol "\x7d")
    (outer : List (Frame α)) :
    (duplicate? g.scope (es.reverse.map (·.1)) = none ∧
      (host.resume ⟨place, outer⟩).step limit t =
        .shift (host.after (.object es.reverse) outer)) ∨
    ∃ e, duplicate? g.scope (es.reverse.map (·.1)) = some e ∧
      (host.resume ⟨place, outer⟩).step limit t = .fail e := by
  have hstep : Body.step g limit ⟨place, outer⟩ t = Body.closeObject g es outer :=
    Body.step_close hp ht
  unfold Body.closeObject at hstep
  cases hd : duplicate? g.scope (es.reverse.map (·.1)) with
  | none =>
    simp only [hd] at hstep
    exact .inl ⟨rfl, host.step_complete hstep⟩
  | some e =>
    simp only [hd] at hstep
    exact .inr ⟨e, rfl, host.step_fail hstep⟩

/-- The brace that closes an object, or finds a name in it twice. -/
theorem reads_close {place : Place α} {es : Entries α}
    (hp : place = .entry es ∨ place = .separator es) {t : Token} (ht : t.isSymbol "\x7d")
    (outer : List (Frame α)) :
    ReadsUnless (¬ (es.reverse.map (·.1.name)).Nodup) limit (host.resume ⟨place, outer⟩) [t] []
      (host.after (.object es.reverse) outer) := by
  rcases host.step_close hp ht outer with ⟨-, hstep⟩ | ⟨e, hd, hstep⟩
  · exact .inl (.one hstep)
  · refine .stop ?_ hstep (duplicate?_isDuplicate hd)
    intro hn
    have hnone := (duplicate?_eq_none_iff g.scope (es.reverse.map (·.1))).2
      (by rwa [List.map_map])
    exact absurd (hnone.symm.trans hd) (by simp)

mutual

/-- A value is read wherever it fits. -/
theorem reads_value {ts : List Token} {v : Tree Ident α} (hv : Value g.Spells ts v)
    (outer : List (Frame α)) (hf : v.HasRoom limit outer.length) :
    ReadsUnless (¬ v.Distinct (·.name)) limit (host.resume ⟨.value, outer⟩) ts []
      (host.after v outer) := by
  cases hv with
  | leaf hl =>
    cases hl with
    | plain hl => exact .inl (.one (host.step_complete (Body.step_leaf host.leaf?_symbol hl)))
    | negated hs hm hp hl =>
      exact .shift (host.step_shift (Body.step_minus hs hm))
        (.inl (.one (host.step_complete (Body.step_negated hp hl))))
  | object hb => exact reads_braced hb .value (.inr rfl) outer hf

theorem reads_braced {ts : List Token} {es : List (Ident × Tree Ident α)}
    (hb : Braced g.Spells ts es) (place : Place α) (hp : place = .brace ∨ place = .value)
    (outer : List (Frame α)) (hf : (Tree.object es).HasRoom limit outer.length) :
    ReadsUnless (¬ (Tree.object es).Distinct (·.name)) limit (host.resume ⟨place, outer⟩) ts []
      (host.after (.object es) outer) := by
  obtain ⟨hroom, hes⟩ := Tree.hasRoom_object_iff.1 hf
  cases hb with
  | @empty o c ho hc =>
    have hclose : ReadsUnless (¬ (([] : Entries α).map (·.1.name)).Nodup) limit
        (host.resume ⟨.entry [], outer⟩) [c] [] (host.after (.object []) outer) :=
      reads_close host (.inl rfl) hc outer
    exact .shift (host.step_shift (Body.step_open hp ho hroom))
      (hclose.imp fun hn => absurd List.nodup_nil hn)
  | @items o c us tail _ ho hi ht hc =>
    have hitems := (reads_items hi outer [] hes).imp
      fun hn hd => hn ((Tree.distinct_object _ es).1 hd).2
    rw [List.append_nil] at hitems
    refine .shift (host.step_shift (Body.step_open hp ho hroom)) ?_
    -- the names that the brace compares are those of the entries
    have hclose : ∀ place, place = .entry es.reverse ∨ place = .separator es.reverse →
        ReadsUnless (¬ (Tree.object es).Distinct (·.name)) limit (host.resume ⟨place, outer⟩) [c]
          [] (host.after (.object es) outer) := by
      intro place hp
      have hclose := reads_close host hp hc outer
      rw [List.reverse_reverse] at hclose
      exact hclose.imp fun hn hd => hn ((Tree.distinct_object _ es).1 hd).1
    cases ht with
    | absent =>
      rw [List.append_nil]
      exact hitems.trans (hclose _ (.inr rfl))
    | comma hcomma =>
      rw [List.append_assoc]
      exact hitems.trans
        (.shift (host.step_shift (Body.step_comma hcomma)) (hclose _ (.inl rfl)))

theorem reads_items {ts : List Token} {es : List (Ident × Tree Ident α)}
    (hi : Items g.Spells ts es) (outer : List (Frame α)) (acc : Entries α)
    (hf : ∀ e ∈ es, e.2.HasRoom limit (outer.length + 1)) :
    ReadsUnless (¬ ∀ e ∈ es, e.2.Distinct (·.name)) limit (host.resume ⟨.entry acc, outer⟩) ts []
      (host.resume ⟨.separator (es.reverse ++ acc), outer⟩) := by
  cases hi with
  | one he =>
    exact (reads_item he outer acc (hf _ (by simp))).imp
      fun hn hd => hn (hd _ (List.mem_singleton_self _))
  | @more us vs c e es he hc hi =>
    obtain ⟨hfe, hfes⟩ := List.forall_mem_cons.1 hf
    have hrest := (reads_items hi outer (e :: acc) hfes).imp
      (Q := ¬ ∀ e' ∈ e :: es, e'.2.Distinct (·.name))
      fun hn hd => hn (List.forall_mem_cons.1 hd).2
    have hfirst := (reads_item he outer acc hfe).imp
      (Q := ¬ ∀ e' ∈ e :: es, e'.2.Distinct (·.name))
      fun hn hd => hn (List.forall_mem_cons.1 hd).1
    rw [List.reverse_cons, List.append_assoc, List.singleton_append]
    exact hfirst.trans (.shift (host.step_shift (Body.step_comma hc)) hrest)

theorem reads_item {ts : List Token} {e : Ident × Tree Ident α} (he : Item g.Spells ts e)
    (outer : List (Frame α)) (acc : Entries α) (hf : e.2.HasRoom limit (outer.length + 1)) :
    ReadsUnless (¬ e.2.Distinct (·.name)) limit (host.resume ⟨.entry acc, outer⟩) ts []
      (host.resume ⟨.separator (e :: acc), outer⟩) := by
  cases he with
  | @mk n c us i v hn hc hv =>
    exact .shift (host.step_shift (Body.step_key hn))
      (.shift (host.step_shift (Body.step_colon hc)) (reads_value hv (⟨acc, i⟩ :: outer) hf))

end

end

theorem Form.ofToken?_eq_some {t : Token} {form : Form} (h : t.isKeyword form.keyword) :
    Form.ofToken? t = some form := by
  have hl := (Token.isKeyword_iff.1 h).2
  have hk := (Token.isKeyword_iff.1 h).1
  cases form with
  | type => simp_all [ofToken?, Token.isKeyword, keyword]
  | binding kind =>
    cases kind <;> simp_all [ofToken?, Token.isKeyword, keyword, BindingKind.keyword]

/-- The tokens before the body of a declaration. -/
theorem reads_heads {ts : List Token} {form : Form} {i : Ident} (h : Heads form i ts)
    (m : OpenModule) : Reads limit (.declarations m) ts [] (State.bodyOf m form i) := by
  cases h with
  | @mk k n a hk hn ha =>
    have hs : k.isSymbol "\x7d" = false :=
      Token.isSymbol_eq_false_of_kind (by simp [(Token.isKeyword_iff.1 hk).1]) _
    refine .shift (u := .declarationName m form) ?_ (.shift (u := .sign m form i) ?_ (.one ?_))
    · simp [State.step, hs, Form.ofToken?_eq_some hk]
    · simp [State.step, Token.ident?_eq_some_iff.2 hn]
    · simp [State.step, ha]

theorem reads_declaration {ts : List Token} {d : Declaration} (h : Declares ts d)
    (hf : ∀ n ∈ limit, d.height ≤ n) (m : OpenModule) :
    ReadsUnless (¬ d.Distinct) limit (.declarations m) ts [] (.declarations (m.add d)) := by
  cases h with
  | @type k n a ts i es hk hn ha hb =>
    have hheads : Heads .type i [k, n, a] := .mk hk hn ha
    have hroom : (Tree.object es).HasRoom limit 0 := by
      simpa [Tree.HasRoom, Declaration.height] using hf
    rw [← typeGrammar_spells] at hb
    exact ReadsUnless.trans (.inl (reads_heads hheads m))
      (reads_braced (Host.ofType limit m i) hb .brace (.inl rfl) [] hroom)
  | @binding k n a ts i kind v hk hn ha hv =>
    have hheads : Heads (.binding kind) i [k, n, a] := .mk hk hn ha
    have hroom : v.HasRoom limit 0 := by simpa [Tree.HasRoom, Declaration.height] using hf
    rw [← literalGrammar_spells] at hv
    have hvalue := reads_value (Host.ofBinding limit m kind i) hv [] hroom
    refine ReadsUnless.trans (.inl (reads_heads hheads m)) (hvalue.imp fun hn hd => hn ?_)
    exact (Tree.distinct_mapKeys Ident.name id v).1 hd

theorem reads_declarations {ts : List Token} {ds : List Declaration} (h : Many Declares ts ds)
    (hf : ∀ d ∈ ds, ∀ n ∈ limit, d.height ≤ n) (m : OpenModule) :
    ReadsUnless (¬ ∀ d ∈ ds, d.Distinct) limit (.declarations m) ts []
      (.declarations { m with declarations := ds.reverse ++ m.declarations }) := by
  induction h generalizing m with
  | nil => exact .inl .nil
  | @cons _ _ d ds hd _ ih =>
    obtain ⟨hfd, hfds⟩ := List.forall_mem_cons.1 hf
    have hfirst := (reads_declaration hd hfd m).imp
      (Q := ¬ ∀ d' ∈ d :: ds, d'.Distinct) fun hn hd => hn (List.forall_mem_cons.1 hd).1
    have hrest := (ih hfds (m.add d)).imp
      (Q := ¬ ∀ d' ∈ d :: ds, d'.Distinct) fun hn hd => hn (List.forall_mem_cons.1 hd).2
    simpa [OpenModule.add] using hfirst.trans hrest

/-- The brace that closes a module, or finds a declaration's name in it twice. -/
theorem reads_moduleClose {t : Token} (ht : t.isSymbol "\x7d") (i : Ident)
    (ds : List Declaration) :
    ReadsUnless (¬ (ds.map (·.name.name)).Nodup) limit (.declarations ⟨i, ds.reverse⟩) [t]
      [⟨i, ds⟩] .between := by
  cases hc : OpenModule.close ⟨i, ds.reverse⟩ with
  | ok r =>
    obtain ⟨rfl, -⟩ := OpenModule.close_eq_ok hc
    rw [List.reverse_reverse] at hc
    refine .inl (.done ?_ .nil)
    simp only [State.step, ht, if_true, hc]
  | error e =>
    refine .stop ?_ (by simp only [State.step, ht, if_true, hc]) (OpenModule.close_isDuplicate hc)
    intro hn
    have hd := OpenModule.close_eq_error hc
    have hnone := (duplicate?_eq_none_iff .declaration (ds.map (·.name))).2
      (by rwa [List.map_map])
    simp [hnone] at hd

theorem reads_module {ts : List Token} {m : Module} (h : IsModule ts m)
    (hf : ∀ n ∈ limit, ∀ d ∈ m.declarations, d.height ≤ n) :
    ReadsUnless (¬ m.Distinct) limit .between ts [m] .between := by
  cases h with
  | @mk k n o c ts i ds hk hn ho hds hc =>
    have hbody := (reads_declarations hds (fun d hm l hl => hf l hl d hm) ⟨i, []⟩).imp
      (Q := ¬ Module.Distinct ⟨i, ds⟩) fun hn hd => hn hd.2
    have hclose : ReadsUnless (¬ Module.Distinct ⟨i, ds⟩) limit
        (.declarations ⟨i, ds.reverse⟩) [c] [⟨i, ds⟩] .between :=
      (reads_moduleClose hc i ds).imp fun hn hd => hn hd.1
    rw [List.append_nil] at hbody
    refine .shift (u := .moduleName) (by simp [State.step, hk]) ?_
    refine .shift (u := .moduleBrace i) (by simp [State.step, Token.ident?_eq_some_iff.2 hn]) ?_
    refine .shift (u := .declarations ⟨i, []⟩) (by simp [State.step, ho]) ?_
    exact hbody.append hclose

/-- Modules of the grammar are read one after the other, up to a name that is repeated. -/
theorem readsUnless_modules {ts : List Token} {ms : List Module} (h : Many IsModule ts ms)
    (hf : ∀ m ∈ ms, ∀ n ∈ limit, ∀ d ∈ m.declarations, d.height ≤ n) :
    ReadsUnless (¬ ∀ m ∈ ms, m.Distinct) limit .between ts ms .between := by
  induction h with
  | nil => exact .inl .nil
  | @cons _ _ m ms hm _ ih =>
    obtain ⟨hfm, hfms⟩ := List.forall_mem_cons.1 hf
    have hfirst := (reads_module hm hfm).imp
      (Q := ¬ ∀ m' ∈ m :: ms, m'.Distinct) fun hn hd => hn (List.forall_mem_cons.1 hd).1
    have hrest := (ih hfms).imp
      (Q := ¬ ∀ m' ∈ m :: ms, m'.Distinct) fun hn hd => hn (List.forall_mem_cons.1 hd).2
    exact hfirst.append hrest

/-- Modules of the grammar that keep the rules are read one after the other. -/
theorem reads_modules {ts : List Token} {ms : List Module} (h : Many IsModule ts ms)
    (hf : ∀ m ∈ ms, m.Fits limit) : Reads limit .between ts ms .between :=
  (readsUnless_modules h fun m hm => (hf m hm).2).resolve_right
    fun hr => hr.1 fun m hm => (hf m hm).1

end SchemaLang
