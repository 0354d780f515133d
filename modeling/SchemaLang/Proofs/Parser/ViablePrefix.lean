import SchemaLang.Proofs.Parser.Acceptance

/-!
# Errors come at the first wrong token

Whatever the machine has taken can be completed: `Completable` follows the states
towards the end of a module, closing what is open, and at worst a repeated name
comes to light at one of the closing braces. An error depends on nothing behind
the token that brings it.
-/
namespace SchemaLang

open Grammar

variable {α : Type} {limit : Option Nat}

/-- The error that a token brings is about that token, as far as it names one. -/
def ParseError.Blames (t : Token) : ParseError → Prop
  | .unexpectedToken _ found p => found = t.lexeme ∧ p = t.position
  | .unexpectedEnd _ _ => False
  | _ => True

theorem ParseError.IsDuplicate.blames {e : ParseError} (h : e.IsDuplicate) (t : Token) :
    e.Blames t := by
  obtain ⟨name, scope, first, second, rfl⟩ := h
  trivial

section Errors

variable {E : ParseError → Prop} {t : Token}

/-- The errors of a move: those of the grammar's leaves apart, an object too many or a
repeated name. -/
theorem Body.Move.keeps_error {g : LeafGrammar α} {b : Body α}
    {v : Verdict (Body α) (Tree Ident α)} (hm : Body.Move g limit b t v)
    (hdeep : ∀ n ∈ limit, E (.nestingTooDeep n t.position))
    (hduplicate : ∀ e, e.IsDuplicate → E e) (hl : ∀ e, g.leaf? t = some (.error e) → E e)
    (hn : ∀ m e, g.negated? m t = some (.error e) → E e) :
    v.Keeps (fun _ => True) (fun _ => True) E := by
  cases hm with
  | opened => trivial
  | tooDeep _ _ hn => exact hdeep _ hn
  | minus => trivial
  | @leaf outer => cases outer <;> trivial
  | badLeaf h => exact hl _ h
  | @negated outer => cases outer <;> trivial
  | badNegated _ h => exact hn _ _ h
  | @closed _ _ outer => cases outer <;> trivial
  | repeated _ _ h => exact hduplicate _ (duplicate?_isDuplicate h)
  | key => trivial
  | colon => trivial
  | comma => trivial
  | reject => trivial

theorem State.Move.keeps_error {s : State} {v : Verdict State Module}
    (hm : State.Move limit s t v) (hdeep : ∀ n ∈ limit, E (.nestingTooDeep n t.position))
    (hduplicate : ∀ e, e.IsDuplicate → E e) (htype : ∀ e, typeLeaf? t = some (.error e) → E e)
    (hscalar : ∀ e, scalar? t = some (.error e) → E e)
    (hnegated : ∀ m e, negatedNumber? m t = some (.error e) → E e) :
    v.Keeps (fun _ => True) (fun _ => True) E := by
  cases hm with
  | opensModule => trivial
  | namesModule => trivial
  | bracesModule => trivial
  | closesModule => trivial
  | repeated _ h => exact hduplicate _ (OpenModule.close_isDuplicate h)
  | announces => trivial
  | namesDeclaration => trivial
  | signs => trivial
  | fields hb =>
    have hk := hb.keeps_error hdeep hduplicate htype (by simp [typeGrammar])
    exact ofBody_keeps hk (fun _ _ => trivial) fun _ _ => trivial
  | value hb =>
    have hk := hb.keeps_error hdeep hduplicate hscalar hnegated
    exact ofBody_keeps hk (fun _ _ => trivial) fun _ _ => trivial
  | reject => trivial

/-- A move that fails blames its token. -/
theorem State.Move.keeps_blames {s : State} {v : Verdict State Module}
    (hm : State.Move limit s t v) :
    v.Keeps (fun _ => True) (fun _ => True) (ParseError.Blames t) := by
  refine hm.keeps_error (fun _ _ => trivial) (fun _ h => h.blames t) ?_ ?_ ?_
  · intro e h
    rw [typeLeaf?_eq_error h]
    exact ⟨rfl, rfl⟩
  · intro e h
    rw [scalar?_eq_error h]
    trivial
  · intro m e h
    rw [number?_eq_error h]
    trivial

end Errors

/-- From the state some tokens lead to the end of a module, or to a repeated name. -/
inductive Completable (limit : Option Nat) : State → Prop where
  | between : Completable limit .between
  | shift {s u : State} {t : Token} :
      t.kind ≠ .endOfInput → s.step limit t = .shift u → Completable limit u → Completable limit s
  | done {s : State} {t : Token} {m : Module} :
      t.kind ≠ .endOfInput → s.step limit t = .done m → Completable limit s
  | duplicate {s : State} {t : Token} {e : ParseError} :
      t.kind ≠ .endOfInput → s.step limit t = .fail e → e.IsDuplicate → Completable limit s

/-- No end of the input among the tokens. -/
def EndFree (ts : List Token) : Prop := ∀ t ∈ ts, t.kind ≠ .endOfInput

instance (ts : List Token) : Decidable (EndFree ts) :=
  inferInstanceAs (Decidable (∀ t ∈ ts, t.kind ≠ .endOfInput))

/-- A run that went well, or found nothing wrong but a repeated name. -/
def Reading.Clean (r : Reading) : Prop := ∀ e ∈ r.failure, e.IsDuplicate

theorem Completable.run {s : State} (h : Completable limit s) :
    ∃ us, EndFree us ∧ ∀ p, (s.run limit p us).Clean := by
  induction h with
  | between => exact ⟨[], by simp [EndFree], fun p e he => by simp [State.run, State.atEnd] at he⟩
  | @shift s u t ht hs _ ih =>
    obtain ⟨us, hus, hrun⟩ := ih
    refine ⟨t :: us, List.forall_mem_cons.2 ⟨ht, hus⟩, fun p => ?_⟩
    rw [State.run, hs]
    exact hrun p
  | @done s t m ht hs =>
    refine ⟨[t], by simpa [EndFree] using ht, fun p e he => ?_⟩
    simp [State.run, hs, State.atEnd] at he
  | @duplicate s t e ht hs hd =>
    refine ⟨[t], by simpa [EndFree] using ht, fun p e' he => ?_⟩
    obtain rfl : e = e' := by simpa [State.run, hs] using he
    exact hd

/-- A token of which only class and text matter. -/
def Token.anywhere (kind : TokenKind) (lexeme : String) : Token := ⟨kind, lexeme, .start⟩

/-- The brace that closes whatever is open. -/
def closingBrace : Token := .anywhere .symbol "\x7d"

theorem closingBrace_isSymbol : closingBrace.isSymbol "\x7d" := by decide

theorem closingBrace_kind : closingBrace.kind ≠ .endOfInput := by decide

theorem completable_declarations (m : OpenModule) : Completable limit (.declarations m) := by
  cases hc : m.close with
  | ok r =>
    have hs : State.step limit (.declarations m) closingBrace = .done r := by
      simp only [State.step, closingBrace_isSymbol, if_true, hc]
    exact .done closingBrace_kind hs
  | error e =>
    have hs : State.step limit (.declarations m) closingBrace = .fail e := by
      simp only [State.step, closingBrace_isSymbol, if_true, hc]
    exact .duplicate closingBrace_kind hs (OpenModule.close_isDuplicate hc)

namespace Host

variable {g : LeafGrammar α} (host : Host limit g)

/-- An object that is open can be closed, or repeats a name. -/
theorem completable_close {place : Place α} {es : Entries α} {outer : List (Frame α)}
    (hp : place = .entry es ∨ place = .separator es)
    (ho : ∀ v, Completable limit (host.after v outer)) :
    Completable limit (host.resume ⟨place, outer⟩) := by
  rcases host.step_close hp closingBrace_isSymbol outer with ⟨-, hstep⟩ | ⟨e, hd, hstep⟩
  · exact .shift closingBrace_kind hstep (ho _)
  · exact .duplicate closingBrace_kind hstep (duplicate?_isDuplicate hd)

/-- The objects around a value are closed one after the other. -/
theorem completable_after (v : Tree Ident α) (outer : List (Frame α)) :
    Completable limit (host.after v outer) := by
  induction outer generalizing v with
  | nil => exact completable_declarations _
  | cons f outer ih => exact host.completable_close (.inr rfl) ih

theorem completable_entry (es : Entries α) (outer : List (Frame α)) :
    Completable limit (host.resume ⟨.entry es, outer⟩) :=
  host.completable_close (.inl rfl) fun v => host.completable_after v outer

/-- Where some token is a leaf, a value can be given. -/
theorem completable_value {t : Token} {a : α} (ht : t.kind ≠ .endOfInput)
    (hl : g.leaf? t = some (.ok a)) (outer : List (Frame α)) :
    Completable limit (host.resume ⟨.value, outer⟩) :=
  .shift ht (host.step_complete (Body.step_leaf host.leaf?_symbol hl))
    (host.completable_after _ outer)

/-- A body that has been begun can be completed, if there is a leaf for each of its places and
room for one object at least. -/
theorem completable {bare : Prop} {ts : List Token} {b : Body α} (h : ReadBody g bare ts b)
    (hroom : ∀ n ∈ limit, 0 < n) {t : Token} {a : α} (ht : t.kind ≠ .endOfInput)
    (hl : g.leaf? t = some (.ok a))
    (hn : g.signed → ∀ m : Position, ∃ t a, t.kind ≠ .endOfInput ∧ t.position = m.next ∧
      g.negated? m t = some (.ok a)) : Completable limit (host.resume b) := by
  cases h with
  | brace =>
    have ho : (Token.anywhere .symbol "\x7b").isSymbol "\x7b" := by decide
    exact .shift (by decide) (host.step_shift (Body.step_open (.inl rfl) ho hroom))
      (host.completable_entry [] [])
  | value => exact host.completable_value ht hl _
  | @number _ outer m _ _ hs _ =>
    obtain ⟨t', a', hk, hp, hneg⟩ := hn hs m.position
    exact .shift hk (host.step_complete (Body.step_negated hp hneg))
      (host.completable_after _ outer)
  | @opened _ _ _ outer _ ho =>
    cases ho with
    | entry => exact host.completable_entry _ outer
    | colon =>
      have hc : (Token.anywhere .symbol ":").isSymbol ":" := by decide
      exact .shift (by decide) (host.step_shift (Body.step_colon hc))
        (host.completable_value ht hl _)
    | separator =>
      exact host.completable_close (.inr rfl) fun v => host.completable_after v outer

end Host

theorem completable_fields {m : OpenModule} {i : Ident} {bare : Prop} {ts : List Token}
    {b : Body TypeLeaf} (h : ReadBody typeGrammar bare ts b) (hroom : ∀ n ∈ limit, 0 < n) :
    Completable limit (.fields m i b) := by
  have hl : typeGrammar.leaf? (.anywhere .identifier "a") =
      some (.ok (.named ⟨"a", .start⟩)) := rfl
  exact (Host.ofType limit m i).completable h hroom (by decide) hl (by simp [typeGrammar])

theorem completable_binding {m : OpenModule} {kind : BindingKind} {i : Ident} {bare : Prop}
    {ts : List Token} {b : Body Scalar} (h : ReadBody literalGrammar bare ts b)
    (hroom : ∀ n ∈ limit, 0 < n) : Completable limit (.value m kind i b) := by
  have hl : literalGrammar.leaf? (.anywhere .boolean "true") = some (.ok (.boolean true)) := rfl
  have hz : Numeral.int64? "-0" = some 0 := by decide
  refine (Host.ofBinding limit m kind i).completable h hroom (by decide) hl ?_
  intro _ p
  refine ⟨⟨.integer, "0", p.next⟩, .integer 0, by simp, rfl, ?_⟩
  exact number?_eq_ok_iff.2 (.inl ⟨rfl, 0, hz, rfl⟩)

/-- What has been begun can be completed. -/
theorem completable_of_read {ts : List Token} {s : State} (h : ReadState ts s)
    (hroom : ∀ n ∈ limit, 0 < n) : Completable limit s := by
  have hname : (Token.anywhere .identifier "a").kind ≠ .endOfInput := by decide
  have hbrace : Completable limit (.moduleBrace ⟨"a", .start⟩) :=
    .shift (t := .anywhere .symbol "\x7b") (by decide) rfl (completable_declarations _)
  have hsign : ∀ m form i, Completable limit (.sign m form i) := by
    intro m form i
    cases form with
    | type =>
      have hread : ReadBody typeGrammar False [] .ofBrace := .brace
      exact .shift (t := .anywhere .symbol "=>") (by decide) rfl (completable_fields hread hroom)
    | binding kind =>
      have hread : ReadBody literalGrammar True [] .ofValue := .value .nil fun _ => trivial
      exact .shift (t := .anywhere .symbol "=") (by decide) rfl (completable_binding hread hroom)
  cases h with
  | between => exact .between
  | moduleName => exact .shift hname rfl hbrace
  | moduleBrace =>
    exact .shift (t := .anywhere .symbol "\x7b") (by decide) rfl (completable_declarations _)
  | declarations => exact completable_declarations _
  | declarationName => exact .shift hname rfl (hsign _ _ _)
  | sign => exact hsign _ _ _
  | fields _ _ hb => exact completable_fields hb hroom
  | value _ _ hb => exact completable_binding hb hroom

/-- Parsing goes well, or finds nothing wrong but a repeated name. -/
def ParsesUpToNames (ts : List Token) : Prop :=
  (∃ p, parse ts = .ok p) ∨ ∃ e, parse ts = .error e ∧ e.IsDuplicate

/-- All lists that begin like this fail with the same error. -/
def FailsFrom (e : ParseError) (ts : List Token) : Prop :=
  ∀ us, EndFree us → ts <+: us → parse us = .error e

theorem parse_of_endFree {ts : List Token} (h : EndFree ts) :
    parse ts = (State.between.run (some maxNesting) (Parser.impliedEnd ts) ts).result := by
  rw [parse, parseWithin_of_ofTokens (ofTokens_of_forall h)]

theorem Reading.Clean.result {r : Reading} (h : r.Clean) :
    (∃ p, r.result = .ok p) ∨ ∃ e, r.result = .error e ∧ e.IsDuplicate := by
  cases hf : r.failure with
  | none => exact .inl ⟨⟨r.modules⟩, by simp only [Reading.result, hf]⟩
  | some e => exact .inr ⟨e, by simp only [Reading.result, hf], h e hf⟩

/-- What the machine has taken is the beginning of a list that parses, names aside. -/
theorem exists_completion {ts : List Token} {ms : List Module} {u : State}
    (h : Reads (some maxNesting) .between ts ms u) (hts : EndFree ts) :
    ∃ us, EndFree us ∧ ts <+: us ∧ ParsesUpToNames us := by
  obtain ⟨_, vs, -, -, -, hread, -⟩ := h.sound
  have hroom : ∀ n ∈ some maxNesting, 0 < n := by
    rintro _ ⟨⟩
    decide
  obtain ⟨us, hus, hrun⟩ := (completable_of_read hread hroom).run
  have hfree : EndFree (ts ++ us) := by
    intro t ht
    rcases List.mem_append.1 ht with ht | ht
    · exact hts t ht
    · exact hus t ht
  refine ⟨ts ++ us, hfree, List.prefix_append ts us, ?_⟩
  rw [ParsesUpToNames, parse_of_endFree hfree, h.run_append]
  exact Reading.Clean.result (hrun (Parser.impliedEnd (ts ++ us)))

/-- An error at a token is the same whatever comes behind it. -/
theorem failsFrom_of_reads {ts : List Token} {ms : List Module} {u : State} {t : Token}
    {e : ParseError} (h : Reads (some maxNesting) .between ts ms u)
    (hu : ∀ p post, (u.run (some maxNesting) p (t :: post)).failure = some e) :
    FailsFrom e (ts ++ [t]) := by
  rintro us hus ⟨post, rfl⟩
  rw [parse_of_endFree hus]
  generalize Parser.impliedEnd (ts ++ [t] ++ post) = p
  rw [List.append_assoc, List.singleton_append, h.run_append]
  simp only [Reading.result, Reading.behind, hu]

/-- The tokens of `module m { const x = - 5 }`, where a blank parts the sign from its number. -/
def strayTokens : List Token :=
  [⟨.keyword, "module", ⟨1, 1⟩⟩, ⟨.identifier, "m", ⟨1, 8⟩⟩, ⟨.symbol, "\x7b", ⟨1, 10⟩⟩,
    ⟨.keyword, "const", ⟨1, 12⟩⟩, ⟨.identifier, "x", ⟨1, 18⟩⟩, ⟨.symbol, "=", ⟨1, 20⟩⟩,
    ⟨.symbol, "-", ⟨1, 22⟩⟩, ⟨.integer, "5", ⟨1, 24⟩⟩, ⟨.symbol, "\x7d", ⟨1, 26⟩⟩]

end SchemaLang
