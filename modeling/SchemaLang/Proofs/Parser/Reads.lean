import SchemaLang.Parser.Basic
import SchemaLang.Proofs.Parser.Grammar

/-!
# What the machine can do

`Body.Move` and `State.Move` list once what a token can do to a body and to a
state; what every run keeps is proved from these lists. `Reads` is a run that has
not stopped, and `run_cases` says that a run reads up to its end or its error.
-/
namespace SchemaLang

namespace Verdict

variable {σ ρ : Type}

/-- The verdict goes on in a state that `next` holds of, ends with a result that `result`
holds of, or stops with an error that `error` holds of. -/
def Keeps (next : σ → Prop) (result : ρ → Prop) (error : ParseError → Prop) :
    Verdict σ ρ → Prop
  | shift s => next s
  | done r => result r
  | fail e => error e
  | reject => True

section

variable {next : σ → Prop} {result : ρ → Prop} {error : ParseError → Prop}

@[simp] theorem keeps_shift (s : σ) : (shift s).Keeps next result error ↔ next s := Iff.rfl
@[simp] theorem keeps_done (r : ρ) : (done r).Keeps next result error ↔ result r := Iff.rfl
@[simp] theorem keeps_fail (e : ParseError) :
    (fail e : Verdict σ ρ).Keeps next result error ↔ error e := Iff.rfl
@[simp] theorem keeps_reject : (reject : Verdict σ ρ).Keeps next result error ↔ True := Iff.rfl

theorem Keeps.and {next' : σ → Prop} {result' : ρ → Prop} {v : Verdict σ ρ}
    (h : v.Keeps next result error) (h' : v.Keeps next' result' error) :
    v.Keeps (fun s => next s ∧ next' s) (fun r => result r ∧ result' r) error := by
  cases v with
  | shift => exact ⟨h, h'⟩
  | done => exact ⟨h, h'⟩
  | fail => exact h
  | reject => trivial

end

end Verdict

namespace Body

variable {α : Type}

/-- All that one token can do to a body. -/
inductive Move (g : LeafGrammar α) (limit : Option Nat) :
    Body α → Token → Verdict (Body α) (Tree Ident α) → Prop where
  | opened {place : Place α} {outer : List (Frame α)} {t : Token} :
      place = .brace ∨ place = .value → t.isSymbol "\x7b" → (∀ n ∈ limit, outer.length < n) →
      Move g limit ⟨place, outer⟩ t (.shift ⟨.entry [], outer⟩)
  | tooDeep {place : Place α} {outer : List (Frame α)} {t : Token} {n : Nat} :
      place = .brace ∨ place = .value → t.isSymbol "\x7b" → n ∈ limit → n ≤ outer.length →
      Move g limit ⟨place, outer⟩ t (.fail (.nestingTooDeep n t.position))
  | minus {outer : List (Frame α)} {t : Token} :
      g.signed → t.isSymbol "-" →
      Move g limit ⟨.value, outer⟩ t (.shift ⟨.number t.position, outer⟩)
  | leaf {outer : List (Frame α)} {t : Token} {a : α} :
      g.leaf? t = some (.ok a) → Move g limit ⟨.value, outer⟩ t (complete (.leaf a) outer)
  | badLeaf {outer : List (Frame α)} {t : Token} {e : ParseError} :
      g.leaf? t = some (.error e) → Move g limit ⟨.value, outer⟩ t (.fail e)
  | negated {outer : List (Frame α)} {m : Position} {t : Token} {a : α} :
      t.position = m.next → g.negated? m t = some (.ok a) →
      Move g limit ⟨.number m, outer⟩ t (complete (.leaf a) outer)
  | badNegated {outer : List (Frame α)} {m : Position} {t : Token} {e : ParseError} :
      t.position = m.next → g.negated? m t = some (.error e) →
      Move g limit ⟨.number m, outer⟩ t (.fail e)
  | closed {place : Place α} {es : Entries α} {outer : List (Frame α)} {t : Token} :
      place = .entry es ∨ place = .separator es → t.isSymbol "\x7d" →
      duplicate? g.scope (es.reverse.map (·.1)) = none →
      Move g limit ⟨place, outer⟩ t (complete (.object es.reverse) outer)
  | repeated {place : Place α} {es : Entries α} {outer : List (Frame α)} {t : Token}
      {e : ParseError} :
      place = .entry es ∨ place = .separator es → t.isSymbol "\x7d" →
      duplicate? g.scope (es.reverse.map (·.1)) = some e → Move g limit ⟨place, outer⟩ t (.fail e)
  | key {es : Entries α} {outer : List (Frame α)} {t : Token} {k : Ident} :
      t.ident? = some k → Move g limit ⟨.entry es, outer⟩ t (.shift ⟨.colon es k, outer⟩)
  | colon {es : Entries α} {k : Ident} {outer : List (Frame α)} {t : Token} :
      t.isSymbol ":" →
      Move g limit ⟨.colon es k, outer⟩ t (.shift ⟨.value, ⟨es, k⟩ :: outer⟩)
  | comma {es : Entries α} {outer : List (Frame α)} {t : Token} :
      t.isSymbol "," → Move g limit ⟨.separator es, outer⟩ t (.shift ⟨.entry es, outer⟩)
  | reject {b : Body α} {t : Token} : Move g limit b t .reject

variable {g : LeafGrammar α} {limit : Option Nat}

theorem move_openObject {place : Place α} {outer : List (Frame α)} {t : Token}
    (hp : place = .brace ∨ place = .value) (ht : t.isSymbol "\x7b") :
    Move g limit ⟨place, outer⟩ t (openObject limit t.position outer) := by
  unfold openObject
  cases hf : limit.filter (· ≤ outer.length) with
  | some n =>
    have hn : n ∈ limit ∧ n ≤ outer.length := by
      simpa only [Option.filter_eq_some_iff, decide_eq_true_eq, Option.mem_def] using hf
    exact .tooDeep hp ht hn.1 hn.2
  | none =>
    refine .opened hp ht ?_
    intro n hn
    have := Option.filter_eq_none_iff.1 hf n hn
    simpa using this

theorem move_closeObject {place : Place α} {es : Entries α} {outer : List (Frame α)} {t : Token}
    (hp : place = .entry es ∨ place = .separator es) (ht : t.isSymbol "\x7d") :
    Move g limit ⟨place, outer⟩ t (closeObject g es outer) := by
  unfold closeObject
  cases hd : duplicate? g.scope (es.reverse.map (·.1)) with
  | some e => exact .repeated hp ht hd
  | none => exact .closed hp ht hd

/-- The verdict on a token is one of the moves. -/
theorem step_move (g : LeafGrammar α) (limit : Option Nat) (b : Body α) (t : Token) :
    Move g limit b t (b.step g limit t) := by
  obtain ⟨place, outer⟩ := b
  cases place with
  | brace =>
    simp only [step]
    split
    · next ht => exact move_openObject (.inl rfl) ht
    · exact .reject
  | value =>
    simp only [step]
    split
    · next ht => exact move_openObject (.inr rfl) ht
    · split
      · next ht =>
        obtain ⟨hs, hm⟩ : g.signed = true ∧ t.isSymbol "-" = true := by simpa using ht
        exact .minus hs hm
      · split
        · next leaf hl =>
          cases leaf with
          | ok a => exact .leaf hl
          | error e => exact .badLeaf hl
        · exact .reject
  | number m =>
    simp only [step]
    split
    · next hp =>
      split
      · next leaf hl =>
        cases leaf with
        | ok a => exact .negated hp hl
        | error e => exact .badNegated hp hl
      · exact .reject
    · exact .reject
  | entry es =>
    simp only [step]
    split
    · next ht => exact move_closeObject (.inl rfl) ht
    · split
      · next hk => exact .key hk
      · exact .reject
  | colon es k =>
    simp only [step]
    split
    · next ht => exact .colon ht
    · exact .reject
  | separator es =>
    simp only [step]
    split
    · next ht => exact move_closeObject (.inr rfl) ht
    · split
      · next ht => exact .comma ht
      · exact .reject

end Body

namespace State

/-- All that one token can do to a state. Within a declaration's body the body moves. -/
inductive Move (limit : Option Nat) : State → Token → Verdict State Module → Prop where
  | opensModule {t : Token} : t.isKeyword "module" → Move limit .between t (.shift .moduleName)
  | namesModule {t : Token} {i : Ident} :
      t.ident? = some i → Move limit .moduleName t (.shift (.moduleBrace i))
  | bracesModule {t : Token} {i : Ident} :
      t.isSymbol "\x7b" → Move limit (.moduleBrace i) t (.shift (.declarations ⟨i, []⟩))
  | closesModule {t : Token} {m : OpenModule} {r : Module} :
      t.isSymbol "\x7d" → m.close = .ok r → Move limit (.declarations m) t (.done r)
  | repeated {t : Token} {m : OpenModule} {e : ParseError} :
      t.isSymbol "\x7d" → m.close = .error e → Move limit (.declarations m) t (.fail e)
  | announces {t : Token} {m : OpenModule} {form : Form} :
      Form.ofToken? t = some form →
      Move limit (.declarations m) t (.shift (.declarationName m form))
  | namesDeclaration {t : Token} {m : OpenModule} {form : Form} {i : Ident} :
      t.ident? = some i → Move limit (.declarationName m form) t (.shift (.sign m form i))
  | signs {t : Token} {m : OpenModule} {form : Form} {i : Ident} :
      t.isSymbol form.sign → Move limit (.sign m form i) t (.shift (bodyOf m form i))
  | fields {t : Token} {m : OpenModule} {i : Ident} {b : Body TypeLeaf}
      {v : Verdict (Body TypeLeaf) (Tree Ident TypeLeaf)} :
      Body.Move typeGrammar limit b t v →
      Move limit (.fields m i b) t
        (ofBody m (.fields m i) (fun tree => .type i tree.entries) v)
  | value {t : Token} {m : OpenModule} {kind : BindingKind} {i : Ident} {b : Body Scalar}
      {v : Verdict (Body Scalar) (Tree Ident Scalar)} :
      Body.Move literalGrammar limit b t v →
      Move limit (.value m kind i b) t
        (ofBody m (.value m kind i) (fun tree => .binding kind i (tree.mapKeys (·.name))) v)
  | reject {s : State} {t : Token} : Move limit s t .reject

/-- What a verdict on a body means for the module around it. -/
theorem ofBody_keeps {α : Type} {m : OpenModule} {resume : Body α → State}
    {declare : Tree Ident α → Declaration} {v : Verdict (Body α) (Tree Ident α)}
    {next : Body α → Prop} {result : Tree Ident α → Prop} {error : ParseError → Prop}
    {next' : State → Prop} {result' : Module → Prop} (h : v.Keeps next result error)
    (hn : ∀ b, next b → next' (resume b))
    (hr : ∀ tree, result tree → next' (.declarations (m.add (declare tree)))) :
    (ofBody m resume declare v).Keeps next' result' error := by
  cases v with
  | shift b => exact hn b h
  | done tree => exact hr tree h
  | fail e => exact h
  | reject => trivial

theorem step_move (limit : Option Nat) (s : State) (t : Token) : Move limit s t (s.step limit t) := by
  cases s with
  | between =>
    simp only [step]
    split
    · next h => exact .opensModule h
    · exact .reject
  | moduleName =>
    simp only [step]
    split
    · next h => exact .namesModule h
    · exact .reject
  | moduleBrace i =>
    simp only [step]
    split
    · next h => exact .bracesModule h
    · exact .reject
  | declarations m =>
    simp only [step]
    split
    · next ht =>
      split
      · next h => exact .closesModule ht h
      · next h => exact .repeated ht h
    · split
      · next h => exact .announces h
      · exact .reject
  | declarationName m form =>
    simp only [step]
    split
    · next h => exact .namesDeclaration h
    · exact .reject
  | sign m form i =>
    simp only [step]
    split
    · next h => exact .signs h
    · exact .reject
  | fields m i b => exact .fields (Body.step_move typeGrammar limit b t)
  | value m kind i b => exact .value (Body.step_move literalGrammar limit b t)

end State

/-- From `s` the machine takes all of the tokens; the modules are complete by then, and it
goes on in the last state. -/
inductive Reads (limit : Option Nat) : State → List Token → List Module → State → Prop where
  | nil {s : State} : Reads limit s [] [] s
  | shift {s u v : State} {t : Token} {ts : List Token} {ms : List Module} :
      s.step limit t = .shift u → Reads limit u ts ms v → Reads limit s (t :: ts) ms v
  | done {s v : State} {t : Token} {m : Module} {ts : List Token} {ms : List Module} :
      s.step limit t = .done m → Reads limit .between ts ms v →
      Reads limit s (t :: ts) (m :: ms) v

/-- What is left after modules that were complete before. -/
def Reading.behind (ms : List Module) (r : Reading) : Reading := { r with modules := ms ++ r.modules }

namespace Reads

variable {limit : Option Nat} {s u v : State} {ts us : List Token} {ms ns : List Module}

theorem one {t : Token} (h : s.step limit t = .shift u) : Reads limit s [t] [] u :=
  .shift h .nil

theorem append (h : Reads limit s ts ms u) (h' : Reads limit u us ns v) :
    Reads limit s (ts ++ us) (ms ++ ns) v := by
  induction h with
  | nil => exact h'
  | shift hs _ ih => exact .shift hs (ih h')
  | done hs _ ih => exact .done hs (ih h')

/-- A run goes on from where reading has led. -/
theorem run_append (h : Reads limit s ts ms u) (endPosition : Position) (us : List Token) :
    s.run limit endPosition (ts ++ us) = (u.run limit endPosition us).behind ms := by
  induction h with
  | nil => rfl
  | shift hs _ ih =>
    rw [List.cons_append, State.run, hs]
    exact ih
  | done hs _ ih =>
    rw [List.cons_append, State.run, hs]
    simp only [ih, Reading.behind, List.cons_append]

/-- A run whose last token completes a module ends well. -/
theorem run_of_between (h : Reads limit s ts ms .between) (endPosition : Position) :
    s.run limit endPosition ts = ⟨ms, none, []⟩ := by
  have hrun := h.run_append endPosition []
  rw [List.append_nil] at hrun
  rw [hrun]
  simp [State.run, State.atEnd, Reading.behind]

/-- What holds between two modules and is kept by every token holds all along, and each
module has what its last token gives it. -/
theorem invariant {I : List Token → State → Prop} {J : List Token → Module → Prop}
    (start : I [] .between)
    (step : ∀ ts s t, I ts s → (s.step limit t).Keeps (I (ts ++ [t])) (J (ts ++ [t])) fun _ => True)
    (h : Reads limit s us ms u) (hs : I ts s) :
    ∃ vs ws, ts ++ us = vs ++ ws ∧ Grammar.Many J vs ms ∧ I ws u := by
  induction h generalizing ts with
  | nil => exact ⟨[], ts, by simp, .nil, hs⟩
  | @shift s u v t us ms hstep _ ih =>
    have hk := step ts s t hs
    rw [hstep] at hk
    obtain ⟨vs, ws, he, hms, hu⟩ := ih hk
    exact ⟨vs, ws, by simpa using he, hms, hu⟩
  | @done s v t m us ms hstep _ ih =>
    have hk := step ts s t hs
    rw [hstep] at hk
    obtain ⟨vs, ws, he, hms, hu⟩ := ih start
    have he' : us = vs ++ ws := by simpa using he
    exact ⟨ts ++ [t] ++ vs, ws, by simp [he'], .cons hk hms, hu⟩

end Reads

/-- A run reads up to the end of the tokens, or up to one that is at fault. -/
theorem State.run_cases (limit : Option Nat) (endPosition : Position) (s : State)
    (ts : List Token) :
    ∃ pre ms u, Reads limit s pre ms u ∧
      ((ts = pre ∧ s.run limit endPosition ts = ⟨ms, u.atEnd endPosition, []⟩) ∨
        ∃ t post, ts = pre ++ t :: post ∧
          ((∃ e, u.step limit t = .fail e ∧
              s.run limit endPosition ts = ⟨ms, some e, post⟩) ∨
            (u.step limit t = .reject ∧ s.run limit endPosition ts =
              ⟨ms, some (.unexpectedToken u.expected t.lexeme t.position), t :: post⟩))) := by
  induction ts generalizing s with
  | nil => exact ⟨[], [], s, .nil, .inl ⟨rfl, rfl⟩⟩
  | cons t ts ih =>
    cases hs : s.step limit t with
    | shift next =>
      obtain ⟨pre, ms, u, hr, h⟩ := ih next
      refine ⟨t :: pre, ms, u, .shift hs hr, ?_⟩
      rw [State.run, hs]
      simpa using h
    | done m =>
      obtain ⟨pre, ms, u, hr, h⟩ := ih .between
      refine ⟨t :: pre, m :: ms, u, .done hs hr, ?_⟩
      rw [State.run, hs]
      rcases h with ⟨rfl, h⟩ | ⟨t', post, rfl, ⟨e, hf, h⟩ | ⟨hf, h⟩⟩
      · exact .inl ⟨rfl, by simp only [h]⟩
      · exact .inr ⟨t', post, rfl, .inl ⟨e, hf, by simp only [h]⟩⟩
      · exact .inr ⟨t', post, rfl, .inr ⟨hf, by simp only [h]⟩⟩
    | fail e =>
      exact ⟨[], [], s, .nil, .inr ⟨t, ts, rfl, .inl ⟨e, hs, by rw [State.run, hs]⟩⟩⟩
    | reject =>
      exact ⟨[], [], s, .nil, .inr ⟨t, ts, rfl, .inr ⟨hs, by rw [State.run, hs]⟩⟩⟩

/-- The error of a run comes at a token or, if it is that of an early end, behind them all. -/
theorem State.run_eq_error {limit : Option Nat} {endPosition : Position} {ts : List Token}
    {e : ParseError} (h : (State.between.run limit endPosition ts).result = .error e) :
    (∃ x, e = .unexpectedEnd x endPosition) ∨
      ∃ pre t post ms u, ts = pre ++ t :: post ∧ Reads limit .between pre ms u ∧
        (u.step limit t = .fail e ∨
          u.step limit t = .reject ∧ e = .unexpectedToken u.expected t.lexeme t.position) := by
  obtain ⟨pre, ms, u, hr, ⟨rfl, hrun⟩ | ⟨t, post, hts, ⟨e', hstep, hrun⟩ | ⟨hstep, hrun⟩⟩⟩ :=
    State.run_cases limit endPosition .between ts
  · rw [hrun] at h
    cases u with
    | between => simp [State.atEnd, Reading.result] at h
    | _ => exact .inl ⟨_, (Except.error.inj h).symm⟩
  · rw [hrun] at h
    obtain rfl : e' = e := Except.error.inj h
    exact .inr ⟨pre, t, post, ms, u, hts, hr, .inl hstep⟩
  · rw [hrun] at h
    exact .inr ⟨pre, t, post, ms, u, hts, hr, .inr ⟨hstep, (Except.error.inj h).symm⟩⟩

end SchemaLang
