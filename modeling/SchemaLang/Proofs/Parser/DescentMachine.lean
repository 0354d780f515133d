import SchemaLang.Proofs.Parser.Descent
import SchemaLang.Proofs.Parser.ViablePrefix

/-!
# The descent does what the machine does

Each procedure of the descent answers like a run of the machine from the place that the
procedure is about, and leaves the cursor where the run leaves its tokens
(`Descent.Simulates`). In front of the end the index stays in the list, and the depth is
as it was, whatever the answer. The recursion ends since each procedure that calls itself
has taken a token, so it goes no deeper than there are tokens.
-/
namespace SchemaLang

open Grammar

variable {α β γ : Type}

/-- The cursor is in front of these tokens and of the end, which is the only one, and no
more than so many objects have been open at once. -/
structure Cursor.Sees (c : Cursor) (us : List Token) (eof : Token) : Prop where
  ahead : c.tokens.drop c.index = us ++ [eof]
  free : EndFree us
  ending : eof.kind = .endOfInput
  shallow : c.deepest ≤ maxNesting

/-- The second cursor is on the same list, not before the first and at the same depth. -/
structure Cursor.Onward (c c' : Cursor) : Prop where
  tokens : c'.tokens = c.tokens
  index : c.index ≤ c'.index
  depth : c'.depth = c.depth

/-- A run of the machine over tokens that this end is behind. -/
abbrev State.runTo (eof : Token) (s : State) (us : List Token) : Reading :=
  s.run (some maxNesting) eof.position us

namespace Cursor

variable {c c' c'' : Cursor} {t eof : Token} {us : List Token}

theorem Onward.refl (c : Cursor) : c.Onward c := ⟨rfl, Nat.le_refl _, rfl⟩

theorem Onward.trans (h : c.Onward c') (h' : c'.Onward c'') : c.Onward c'' where
  tokens := h'.tokens.trans h.tokens
  index := h.index.trans h'.index
  depth := h'.depth.trans h.depth

theorem onward_next (c : Cursor) : c.Onward c.next := ⟨rfl, Nat.le_succ _, rfl⟩

theorem Sees.next (h : c.Sees (t :: us) eof) : c.next.Sees us eof where
  ahead := by
    show c.tokens.drop (c.index + 1) = _
    rw [← List.drop_drop, h.ahead]
    rfl
  free := (List.forall_mem_cons.1 h.free).2
  ending := h.ending
  shallow := h.shallow

/-- The token at the index is the first one ahead. -/
theorem Sees.get (h : c.Sees us eof) : c.tokens[c.index]? = some (us.headD eof) := by
  rw [← List.head?_drop, h.ahead]
  cases us <;> rfl

/-- The end is no symbol. -/
theorem Sees.exists_cons (h : c.Sees us eof) {symbol : String}
    (hs : (us.headD eof).isSymbol symbol) : ∃ t us', us = t :: us' ∧ t.isSymbol symbol := by
  cases us with
  | nil => simp [Token.isSymbol, h.ending] at hs
  | cons t us => exact ⟨t, us, rfl, hs⟩

end Cursor

namespace Descent

variable {c c' : Cursor} {us : List Token} {eof : Token} {r : Reading} {j k : Nat}
  {m : Descent β} {f : β → Descent γ}

theorem peek_of_sees (h : c.Sees us eof) : peek c = some (.ok (us.headD eof), c) := by
  rw [peek, h.get]
  rfl

theorem advance_of_sees {t : Token} (h : c.Sees (t :: us) eof) :
    advance c = some (.ok t, c.next) := by
  have ht : t.kind ≠ .endOfInput := h.free t (by simp)
  rw [advance, bind_ok (peek_of_sees h), List.headD_cons, if_pos ht]
  rfl

theorem unexpected_of_sees {x : Expected} {t : Token} (h : c.Sees (t :: us) eof) :
    (unexpected x : Descent β) c = some (.error (.unexpectedToken x t.lexeme t.position), c) := by
  have ht : t.kind ≠ .endOfInput := h.free t (by simp)
  rw [unexpected, bind_ok (peek_of_sees h), List.headD_cons, if_neg ht]
  rfl

theorem unexpected_of_sees_end {x : Expected} (h : c.Sees [] eof) :
    (unexpected x : Descent β) c = some (.error (.unexpectedEnd x eof.position), c) := by
  rw [unexpected, bind_ok (peek_of_sees h), List.headD_nil, if_pos h.ending]
  rfl

/-- The procedure answers, and the cursor it leaves is in front of tokens that the run `r` has
left as well. With an error the run has stopped there. With a result it goes on as `K` says,
and `k` tokens at least have been taken. -/
def Simulates (k : Nat) (eof : Token) (m : Descent β) (c : Cursor) (us : List Token) (r : Reading)
    (K : β → List Token → Reading) : Prop :=
  ∃ a c' us', m c = some (a, c') ∧ c.Onward c' ∧ c'.Sees us' eof ∧
    match a with
    | .ok b => us'.length + k ≤ us.length ∧ r = K b us'
    | .error e => r = ⟨[], some e, us'⟩

variable {K : β → List Token → Reading} {K' : γ → List Token → Reading}

theorem Simulates.weaken (hm : Simulates k eof m c us r K) : Simulates 0 eof m c us r K := by
  obtain ⟨a, c', us', hm, hon, hsees, h⟩ := hm
  refine ⟨a, c', us', hm, hon, hsees, ?_⟩
  cases a with
  | error e => exact h
  | ok b => exact ⟨by omega, h.2⟩

theorem Simulates.bind (hm : Simulates k eof m c us r K)
    (hf : ∀ b c' us', c.Onward c' → c'.Sees us' eof → us'.length + k ≤ us.length →
      Simulates 0 eof (f b) c' us' (K b us') K') :
    Simulates k eof (m >>= f) c us r K' := by
  obtain ⟨a, c', us', hm, hon, hsees, h⟩ := hm
  cases a with
  | error e => exact ⟨.error e, c', us', bind_error hm, hon, hsees, h⟩
  | ok b =>
    obtain ⟨hlength, rfl⟩ := h
    obtain ⟨a, c'', us'', hf, hon', hsees', h'⟩ := hf b c' us' hon hsees hlength
    refine ⟨a, c'', us'', (bind_ok hm).trans hf, hon.trans hon', hsees', ?_⟩
    cases a with
    | error e => exact h'
    | ok b' => exact ⟨by omega, h'.2⟩

theorem Simulates.pure {b : β} (h : c.Sees us eof) (hr : r = K b us) :
    Simulates 0 eof (Pure.pure b : Descent β) c us r K :=
  ⟨.ok b, c, us, rfl, .refl c, h, Nat.le_refl _, hr⟩

/-- A procedure that looks at the cursor. -/
theorem Simulates.cursor {f : Cursor → Descent β} (hf : Simulates k eof (f c) c us r K) :
    Simulates k eof (MonadState.get >>= f) c us r K := by
  obtain ⟨a, c', us', hf, hrest⟩ := hf
  exact ⟨a, c', us', hf, hrest⟩

theorem Simulates.throw (h : c.Sees us eof) (e : ParseError) :
    Simulates k eof (MonadExcept.throw e : Descent β) c us ⟨[], some e, us⟩ K :=
  ⟨.error e, c, us, rfl, .refl c, h, rfl⟩

/-- A procedure that looks at the next token goes on with the first one ahead. -/
theorem Simulates.peek {f : Token → Descent β} (h : c.Sees us eof)
    (hf : Simulates k eof (f (us.headD eof)) c us r K) :
    Simulates k eof (Descent.peek >>= f) c us r K := by
  obtain ⟨a, c', us', hf, hrest⟩ := hf
  exact ⟨a, c', us', (bind_ok (peek_of_sees h)).trans hf, hrest⟩

theorem Simulates.advance {t : Token} {f : Token → Descent β} (h : c.Sees (t :: us) eof)
    (hf : Simulates 0 eof (f t) c.next us r K) :
    Simulates 1 eof (Descent.advance >>= f) c (t :: us) r K := by
  obtain ⟨a, c', us', hf, hon, hsees, h'⟩ := hf
  refine ⟨a, c', us', (bind_ok (advance_of_sees h)).trans hf, c.onward_next.trans hon, hsees, ?_⟩
  cases a with
  | error e => exact h'
  | ok b => exact ⟨Nat.succ_le_succ h'.1, h'.2⟩

/-- A token that is expected and one that is not, as a state has it. -/
theorem simulates_expect {accept : Token → Option β} {x : Expected} {s : State}
    (h : c.Sees us eof) (hx : s.expected = x)
    (hend : us = [] → s.atEnd eof.position = some (.unexpectedEnd s.expected eof.position))
    (hnot : ∀ t, t.kind = .endOfInput → accept t = none)
    (hnone : ∀ t us', us = t :: us' → accept t = none → s.step (some maxNesting) t = .reject)
    (hsome : ∀ t b us', us = t :: us' → accept t = some b →
      s.runTo eof us = K b us') :
    Simulates 1 eof (expect accept x) c us (s.runTo eof us) K := by
  subst hx
  cases us with
  | nil =>
    refine .peek h ?_
    rw [List.headD_nil, hnot eof h.ending, State.runTo, State.run, hend rfl]
    exact ⟨_, c, [], unexpected_of_sees_end h, .refl c, h, rfl⟩
  | cons t us =>
    refine .peek h ?_
    rw [List.headD_cons]
    cases ha : accept t with
    | none =>
      rw [State.runTo, State.run, hnone t us rfl ha]
      exact ⟨_, c, t :: us, unexpected_of_sees h, .refl c, h, rfl⟩
    | some b =>
      rw [hsome t b us rfl ha]
      exact .advance h (.pure h.next rfl)

/-- What follows a symbol that is taken if it comes next. -/
theorem Simulates.eatSymbol {symbol : String} {f : Bool → Descent β} (h : c.Sees us eof)
    (htrue : ∀ t us', us = t :: us' → t.isSymbol symbol → c.next.Sees us' eof →
      Simulates k eof (f true) c.next us' r K)
    (hfalse : (us.headD eof).isSymbol symbol = false → Simulates k eof (f false) c us r K) :
    Simulates k eof (Descent.eatSymbol symbol >>= f) c us r K := by
  cases hs : (us.headD eof).isSymbol symbol with
  | false =>
    have heat : Descent.eatSymbol symbol c = some (.ok false, c) := by
      rw [Descent.eatSymbol, bind_ok (peek_of_sees h), hs, if_neg (by decide)]
      rfl
    obtain ⟨a, c', us', hf, hrest⟩ := hfalse hs
    exact ⟨a, c', us', (bind_ok heat).trans hf, hrest⟩
  | true =>
    obtain ⟨t, us, rfl, ht⟩ := h.exists_cons hs
    have heat : Descent.eatSymbol symbol c = some (.ok true, c.next) := by
      rw [Descent.eatSymbol, bind_ok (peek_of_sees h), if_pos hs, bind_ok (advance_of_sees h)]
      rfl
    obtain ⟨a, c', us', hf, hon, hsees, h'⟩ := htrue t us rfl ht h.next
    refine ⟨a, c', us', (bind_ok heat).trans hf, c.onward_next.trans hon, hsees, ?_⟩
    cases a with
    | error e => exact h'
    | ok b => exact ⟨by rw [List.length_cons]; omega, h'.2⟩

/-- What follows a comparison of names that stops at a repetition. -/
theorem Simulates.ensureUnique {scope : Scope} {names : List Ident} {f : Unit → Descent β}
    (h : c.Sees us eof) (hf : Simulates k eof (f ()) c us r K) :
    Simulates k eof (Descent.ensureUnique scope names >>= f) c us
      (match duplicate? scope names with
        | some e => ⟨[], some e, us⟩
        | none => r) K := by
  unfold Descent.ensureUnique
  cases duplicate? scope names with
  | some e => exact ⟨.error e, c, us, bind_error rfl, .refl c, h, rfl⟩
  | none =>
    obtain ⟨a, c', us', hf, hrest⟩ := hf
    exact ⟨a, c', us', (bind_ok rfl).trans hf, hrest⟩

/-- What is enclosed by a change of depth: the depth is the same again behind it. -/
theorem Simulates.enclosed (hc : c.Sees us eof) (hroom : c.depth < maxNesting)
    (hm : c.enter.Sees us eof → Simulates k eof m c.enter us r K) :
    Simulates k eof (enclosed m) c us r K := by
  have hdeep : c.enter.Sees us eof :=
    ⟨hc.ahead, hc.free, hc.ending, Nat.max_le.2 ⟨hc.shallow, hroom⟩⟩
  obtain ⟨a, c', us', hm, hon, hsees, h⟩ := hm hdeep
  have hdepth : c'.depth = c.depth + 1 := hon.depth
  have hleave : c'.leave? = some { c' with depth := c.depth } := by
    rw [Cursor.leave?, if_neg (by omega), hdepth]
    rfl
  refine ⟨a, { c' with depth := c.depth }, us', ?_, ⟨hon.tokens, hon.index, rfl⟩,
    ⟨hsees.ahead, hsees.free, hsees.ending, hsees.shallow⟩, h⟩
  rw [enclosed_apply, hm, Option.bind_some, hleave, Option.map_some]

/-- A symbol that the state shifts, and no other token. -/
theorem simulates_expectSymbol {symbol : String} {x : Expected} {s : State} {next : State}
    (h : c.Sees us eof) (hx : s.expected = x)
    (hend : s.atEnd eof.position = some (.unexpectedEnd s.expected eof.position))
    (hstep : ∀ t, s.step (some maxNesting) t = if t.isSymbol symbol then .shift next else .reject) :
    Simulates 1 eof (expectSymbol symbol x) c us (s.runTo eof us)
      fun _ us' => next.runTo eof us' := by
  refine simulates_expect h hx (fun _ => hend) ?_ ?_ ?_
  · intro t ht
    simp [Token.isSymbol, ht]
  · intro t us' _ ha
    rw [hstep, if_neg (by simpa using ha)]
  · rintro t b us' rfl ha
    have ht : t.isSymbol symbol := (Option.ite_none_right_eq_some.1 ha).1
    rw [State.runTo, State.run, hstep, if_pos ht]

theorem simulates_expectIdent {s : State} {next : Ident → State} (h : c.Sees us eof)
    (hx : s.expected = .identifier)
    (hend : s.atEnd eof.position = some (.unexpectedEnd s.expected eof.position))
    (hnone : ∀ t us', us = t :: us' → t.ident? = none → s.step (some maxNesting) t = .reject)
    (hsome : ∀ t i, t.ident? = some i → s.step (some maxNesting) t = .shift (next i)) :
    Simulates 1 eof expectIdent c us (s.runTo eof us)
      fun i us' => (next i).runTo eof us' := by
  refine simulates_expect h hx (fun _ => hend) ?_ hnone ?_
  · intro t ht
    simp [Token.ident?, ht]
  · rintro t i us' rfl hi
    rw [State.runTo, State.run, hsome t i hi]

end Descent

/-- What becomes of an object whose entries are complete: it is the value, unless it repeats a
name. -/
def Host.closed {g : LeafGrammar α} (host : Host (some maxNesting) g) (eof : Token)
    (outer : List (Frame α)) (es : List (Ident × Tree Ident α)) (us : List Token) : Reading :=
  match duplicate? g.scope (es.map (·.1)) with
  | some e => ⟨[], some e, us⟩
  | none => (host.after (.object es) outer).runTo eof us

namespace Descent

section Bodies

variable {g : LeafGrammar α} (host : Host (some maxNesting) g) {c : Cursor} {us : List Token}
  {eof : Token} {outer : List (Frame α)}

theorem run_close {place : Place α} {es : Entries α} {t : Token}
    (hp : place = .entry es ∨ place = .separator es) (ht : t.isSymbol "\x7d") :
    (host.resume ⟨place, outer⟩).runTo eof (t :: us) =
      host.closed eof outer es.reverse us := by
  rcases host.step_close hp ht outer with ⟨hd, hstep⟩ | ⟨e, hd, hstep⟩
  · simp only [State.runTo, State.run, hstep, Host.closed, hd]
  · simp only [State.runTo, State.run, hstep, Host.closed, hd]

theorem run_open {place : Place α} {t : Token} (hp : place = .brace ∨ place = .value)
    (ht : t.isSymbol "\x7b") :
    (host.resume ⟨place, outer⟩).runTo eof (t :: us) =
      if maxNesting ≤ outer.length then ⟨[], some (.nestingTooDeep maxNesting t.position), us⟩
      else (host.resume ⟨.entry [], outer⟩).runTo eof us := by
  by_cases hdeep : maxNesting ≤ outer.length
  · have hstep : Body.step g (some maxNesting) ⟨place, outer⟩ t =
        .fail (.nestingTooDeep maxNesting t.position) := by
      rcases hp with rfl | rfl <;> simp [Body.step, Body.openObject, ht, hdeep, Option.filter]
    rw [State.runTo, State.run, host.step_fail hstep, if_pos hdeep]
  · have hroom : ∀ n ∈ some maxNesting, outer.length < n := by
      rintro _ ⟨⟩
      exact Nat.lt_of_not_le hdeep
    rw [State.runTo, State.run, host.step_shift (Body.step_open hp ht hroom), if_neg hdeep]

/-- Where no comma comes, the object has to be closed. -/
theorem simulates_closeItems {es : Entries α} (h : c.Sees us eof)
    (hcomma : (us.headD eof).isSymbol "," = false) :
    Simulates 1 eof (closeItems es) c us
      ((host.resume ⟨.separator es, outer⟩).runTo eof us)
      (host.closed eof outer) := by
  have hbrace : Simulates 1 eof (expectSymbol "\x7d" .separator) c us
      ((host.resume ⟨.separator es, outer⟩).runTo eof us)
      fun _ us' => host.closed eof outer es.reverse us' := by
    refine simulates_expect h (host.expected _) (fun _ => host.atEnd _ _) ?_ ?_ ?_
    · intro t ht
      simp [Token.isSymbol, ht]
    · rintro t us' rfl ha
      have ht : t.isSymbol "\x7d" = false := by simpa using ha
      rw [host.step]
      simp [Body.step, ht, show t.isSymbol "," = false from hcomma, State.ofBody]
    · rintro t b us' rfl ha
      exact run_close host (.inr rfl) (Option.ite_none_right_eq_some.1 ha).1
  exact hbrace.bind fun _ c' us' _ hsees _ => .pure hsees rfl

/-- The procedure reads values as it should where fewer than `n` tokens are ahead. -/
def ReadsValues (read : Descent (Tree Ident α)) (eof : Token) (n : Nat) : Prop :=
  ∀ (outer : List (Frame α)) (c : Cursor) (us : List Token), us.length < n → c.Sees us eof →
    c.depth = outer.length →
    Simulates 1 eof read c us
      ((host.resume ⟨.value, outer⟩).runTo eof us)
      fun v us' => (host.after v outer).runTo eof us'

variable {read : Descent (Tree Ident α)} {n : Nat}

theorem ReadsValues.of_le {m : Nat} (hv : ReadsValues host read eof n) (hm : m ≤ n) :
    ReadsValues host read eof m :=
  fun outer c us hus => hv outer c us (hus.trans_le hm)

theorem simulates_item {es : Entries α} (hv : ReadsValues host read eof us.length)
    (h : c.Sees us eof) (hd : c.depth = outer.length + 1)
    (hbrace : (us.headD eof).isSymbol "\x7d" = false) :
    Simulates 1 eof (item read) c us
      ((host.resume ⟨.entry es, outer⟩).runTo eof us)
      fun e us' => (host.resume ⟨.separator (e :: es), outer⟩).runTo eof us' := by
  have hname : Simulates 1 eof expectIdent c us
      ((host.resume ⟨.entry es, outer⟩).runTo eof us)
      fun i us' => (host.resume ⟨.colon es i, outer⟩).runTo eof us' := by
    refine simulates_expectIdent h (host.expected _) (host.atEnd _ _) ?_ ?_
    · rintro t us' rfl ht
      rw [host.step]
      simp [Body.step, ht, show t.isSymbol "\x7d" = false from hbrace, State.ofBody]
    · intro t i ht
      exact host.step_shift (Body.step_key (Token.ident?_eq_some_iff.1 ht))
  rw [item]
  refine hname.bind fun i c' us' hon hsees hlength => ?_
  have hcolon : Simulates 1 eof (expectSymbol ":" .colon) c' us'
      ((host.resume ⟨.colon es i, outer⟩).runTo eof us')
      fun _ us'' => (host.resume ⟨.value, ⟨es, i⟩ :: outer⟩).runTo eof us'' := by
    refine simulates_expectSymbol hsees (host.expected _) (host.atEnd _ _) ?_
    intro t
    rw [host.step]
    cases ht : t.isSymbol ":" <;> simp [Body.step, ht, State.ofBody]
  refine (hcolon.bind fun _ c'' us'' hon' hsees' hlength' => ?_).weaken
  have hdepth : c''.depth = (⟨es, i⟩ :: outer : List (Frame α)).length := by
    rw [hon'.depth, hon.depth, hd, List.length_cons]
  have hvalue := hv _ c'' us'' (by omega) hsees' hdepth
  exact .weaken (.bind hvalue fun v c₃ us₃ _ hsees₃ _ => .pure hsees₃ rfl)

/-- Items up to the closing brace, those before given. Each call but the last is for an item, so
the recursion does not go deeper than there are tokens. -/
theorem simulates_items {es : Entries α} (hv : ReadsValues host read eof n)
    (hn : us.length < n) (h : c.Sees us eof) (hd : c.depth = outer.length + 1) :
    Simulates 1 eof (items read n es) c us
      ((host.resume ⟨.entry es, outer⟩).runTo eof us)
      (host.closed eof outer) := by
  induction n generalizing c us es with
  | zero => exact absurd hn (Nat.not_lt_zero _)
  | succ n ih =>
    rw [items]
    refine .peek h ?_
    cases hbrace : (us.headD eof).isSymbol "\x7d" with
    | true =>
      rw [if_pos rfl]
      obtain ⟨t, us, rfl, ht⟩ := h.exists_cons hbrace
      rw [run_close host (.inl rfl) ht, ← run_close host (.inr rfl) ht]
      exact simulates_closeItems host h (Token.isSymbol_eq_false ht _ (by decide))
    | false =>
      rw [if_neg (by decide)]
      have hitem : Simulates 1 eof (item read) c us
          ((host.resume ⟨.entry es, outer⟩).runTo eof us)
          fun e us' => (host.resume ⟨.separator (e :: es), outer⟩).runTo eof us' :=
        simulates_item host (hv.of_le host hn.le) h hd hbrace
      refine hitem.bind fun e c' us' hon hsees hshort => ?_
      have hdepth : c'.depth = outer.length + 1 := hon.depth.trans hd
      refine .eatSymbol hsees ?_ fun hcomma => (simulates_closeItems host hsees hcomma).weaken
      rintro t us'' rfl hcomma hsees'
      have hrun : (host.resume ⟨.separator (e :: es), outer⟩).runTo eof
          (t :: us'') =
          (host.resume ⟨.entry (e :: es), outer⟩).runTo eof us'' := by
        rw [State.runTo, State.run, host.step_shift (Body.step_comma hcomma)]
      rw [List.length_cons] at hshort
      rw [hrun]
      exact (ih (hv.of_le host (Nat.le_succ n)) (by omega) hsees' hdepth).weaken

theorem simulates_braced (hv : ReadsValues host read eof n) (hn : us.length ≤ n)
    (h : c.Sees us eof) (hd : c.depth = outer.length) :
    Simulates 1 eof (braced read n) c us
      ((host.resume ⟨.brace, outer⟩).runTo eof us)
      (host.closed eof outer) := by
  have hbrace : Simulates 1 eof (expectSymbol "\x7b" .openBrace) c us
      ((host.resume ⟨.brace, outer⟩).runTo eof us)
      fun t us' => if maxNesting ≤ outer.length
        then ⟨[], some (.nestingTooDeep maxNesting t.position), us'⟩
        else (host.resume ⟨.entry [], outer⟩).runTo eof us' := by
    refine simulates_expect h (host.expected _) (fun _ => host.atEnd _ _) ?_ ?_ ?_
    · intro t ht
      simp [Token.isSymbol, ht]
    · intro t us' _ ha
      have ht : t.isSymbol "\x7b" = false := by simpa using ha
      rw [host.step]
      simp [Body.step, ht, State.ofBody]
    · rintro t b us' rfl ha
      obtain ⟨ht, hb⟩ := Option.ite_none_right_eq_some.1 ha
      obtain rfl : t = b := Option.some.inj hb
      exact run_open host (.inl rfl) ht
  rw [braced]
  refine hbrace.bind fun t c' us' hon hsees hshort => ?_
  have hdepth : c'.depth = outer.length := hon.depth.trans hd
  refine .cursor ?_
  by_cases hdeep : maxNesting ≤ outer.length
  · rw [if_pos hdeep, if_pos (by omega)]
    exact .throw hsees _
  · rw [if_neg hdeep, if_neg (by omega)]
    refine .enclosed hsees (by omega) fun hsees' => ?_
    have henter : c'.enter.depth = outer.length + 1 := congrArg (· + 1) hdepth
    exact (simulates_items host hv (by omega) hsees' henter).weaken

/-- The entries of an object, compared. -/
theorem simulates_object (hv : ReadsValues host read eof n) (hn : us.length ≤ n)
    (h : c.Sees us eof) (hd : c.depth = outer.length) :
    Simulates 1 eof (object g read n) c us ((host.resume ⟨.brace, outer⟩).runTo eof us)
      fun es us' => (host.after (.object es) outer).runTo eof us' := by
  rw [object]
  refine (simulates_braced host hv hn h hd).bind fun es c' us' _ hsees _ => ?_
  exact .ensureUnique hsees (.pure hsees rfl)

/-- What becomes of a leaf. -/
def leafRead (eof : Token) (outer : List (Frame α)) (leaf : Except ParseError α)
    (us : List Token) : Reading :=
  match leaf with
  | .ok a => (host.after (.leaf a) outer).runTo eof us
  | .error e => ⟨[], some e, us⟩

theorem run_leaf {place : Place α} {t : Token} {leaf : Except ParseError α}
    (hstep : Body.step g (some maxNesting) ⟨place, outer⟩ t = Body.completeLeaf leaf outer) :
    (host.resume ⟨place, outer⟩).runTo eof (t :: us) = leafRead host eof outer leaf us := by
  cases leaf with
  | ok a => rw [State.runTo, State.run, host.step_complete hstep, leafRead]
  | error e => rw [State.runTo, State.run, host.step_fail hstep, leafRead]

/-- A leaf that has been taken is the value or brings its error. -/
theorem simulates_leaf {m : Descent (Except ParseError α)} {r : Reading}
    (hm : Simulates 1 eof m c us r (leafRead host eof outer)) :
    Simulates 1 eof (do let leaf ← m; return .leaf (← ofExcept leaf)) c us r
      fun v us' => (host.after v outer).runTo eof us' := by
  refine hm.bind fun leaf c' us' _ hsees _ => ?_
  cases leaf with
  | ok a => exact .pure hsees rfl
  | error e => exact ⟨.error e, c', us', bind_error rfl, .refl c', hsees, rfl⟩

/-- A leaf that no minus sign is in front of. -/
theorem simulates_plainLeaf (hg : g.Plain) (h : c.Sees us eof)
    (hbrace : (us.headD eof).isSymbol "\x7b" = false)
    (hminus : (g.signed && (us.headD eof).isSymbol "-") = false) :
    Simulates 1 eof (expect g.leaf? g.expected) c us
      ((host.resume ⟨.value, outer⟩).runTo eof us) (leafRead host eof outer) := by
  refine simulates_expect h (host.expected _) (fun _ => host.atEnd _ _) ?_ ?_ ?_
  · intro t ht
    cases hl : g.leaf? t with
    | none => rfl
    | some l => exact absurd ht (hg.leaf_kind hl).2
  · rintro t us' rfl ha
    rw [List.headD_cons] at hbrace hminus
    rw [host.step]
    simp [Body.step, hbrace, hminus, ha, State.ofBody]
  · rintro t leaf us' rfl hl
    rw [List.headD_cons] at hbrace hminus
    exact run_leaf host (by simp [Body.step, hbrace, hminus, hl])

/-- A number behind its minus sign. -/
theorem simulates_number (hg : g.Plain) (h : c.Sees us eof) (minus : Position) :
    Simulates 1 eof (expect (g.adjacent? minus) .adjacentNumber) c us
      ((host.resume ⟨.number minus, outer⟩).runTo eof us) (leafRead host eof outer) := by
  refine simulates_expect h (host.expected _) (fun _ => host.atEnd _ _) ?_ ?_ ?_
  · intro t ht
    have hnone : g.negated? minus t = none := by
      cases hl : g.negated? minus t with
      | none => rfl
      | some l => simpa [ht] using hg.negated_kind hl
    simp [LeafGrammar.adjacent?, hnone]
  · rintro t us' rfl ha
    rw [host.step, Body.step]
    split <;> simp_all [State.ofBody, LeafGrammar.adjacent?]
  · rintro t leaf us' rfl ha
    obtain ⟨hp, hl⟩ := Option.ite_none_right_eq_some.1 ha
    exact run_leaf host (by simp [Body.step, hp, hl])

/-- A value is read wherever it is due, by a recursion as deep as there are tokens. -/
theorem readsValues (hg : g.Plain) (eof : Token) (n : Nat) :
    ReadsValues host (value g n) eof n := by
  induction n with
  | zero => exact fun _ _ _ h => absurd h (Nat.not_lt_zero _)
  | succ n ih =>
    intro outer c us hn h hd
    rw [value]
    refine .peek h ?_
    cases hbrace : (us.headD eof).isSymbol "\x7b" with
    | true =>
      rw [if_pos rfl]
      obtain ⟨t, us, rfl, ht⟩ := h.exists_cons hbrace
      have hobject := simulates_object host ih (Nat.lt_succ_iff.1 hn) h hd
      rw [run_open host (.inr rfl) ht, ← run_open host (.inl rfl) ht]
      exact hobject.bind fun es c' us' _ hsees _ => .pure hsees rfl
    | false =>
      rw [if_neg (by decide)]
      cases hminus : g.signed && (us.headD eof).isSymbol "-" with
      | true =>
        rw [if_pos rfl]
        obtain ⟨hsigned, hsymbol⟩ := Bool.and_eq_true_iff.1 hminus
        obtain ⟨t, us, rfl, ht⟩ := h.exists_cons hsymbol
        rw [State.runTo, State.run, host.step_shift (Body.step_minus hsigned ht)]
        exact .advance h (simulates_leaf host (simulates_number host hg h.next _)).weaken
      | false =>
        rw [if_neg (by decide)]
        exact simulates_leaf host (simulates_plainLeaf host hg h hbrace hminus)

end Bodies

section Programs

variable {c : Cursor} {us : List Token} {eof : Token} {m : OpenModule} {n : Nat}

theorem simulates_declaration (hn : us.length ≤ n) (h : c.Sees us eof) (hd : c.depth = 0)
    (hbrace : (us.headD eof).isSymbol "\x7d" = false) :
    Simulates 1 eof (declaration n) c us ((State.declarations m).runTo eof us)
      fun d us' => (State.declarations (m.add d)).runTo eof us' := by
  rw [declaration]
  refine .peek h ?_
  cases us with
  | nil =>
    have hnone : Form.ofToken? eof = none := by simp [Form.ofToken?, Token.isKeyword, h.ending]
    rw [List.headD_nil, hnone]
    exact ⟨_, c, [], unexpected_of_sees_end h, .refl c, h, rfl⟩
  | cons t us =>
    rw [List.headD_cons] at hbrace ⊢
    cases hform : Form.ofToken? t with
    | none =>
      refine ⟨_, c, t :: us, unexpected_of_sees h, .refl c, h, ?_⟩
      simp [State.runTo, State.run, State.step, hbrace, hform, State.expected]
    | some form =>
      have hstep : (State.declarations m).step (some maxNesting) t =
          .shift (.declarationName m form) := by
        simp [State.step, hbrace, hform]
      rw [State.runTo, State.run, hstep]
      refine .advance h ?_
      have hname : Simulates 1 eof expectIdent c.next us
          ((State.declarationName m form).runTo eof us)
          fun i us' => (State.sign m form i).runTo eof us' := by
        refine simulates_expectIdent h.next rfl rfl ?_ ?_
        · intro t _ _ ht
          simp [State.step, ht]
        · intro t i ht
          simp [State.step, ht]
      refine (hname.bind fun i c' us' hon hsees hshort => ?_).weaken
      have hsign : Simulates 1 eof (expectSymbol form.sign form.expected) c' us'
          ((State.sign m form i).runTo eof us')
          fun _ us'' => (State.bodyOf m form i).runTo eof us'' :=
        simulates_expectSymbol hsees rfl rfl fun _ => rfl
      refine (hsign.bind fun _ c'' us'' hon' hsees' hshort' => ?_).weaken
      have hdepth : c''.depth = 0 := by rw [hon'.depth, hon.depth, ← hd]; rfl
      rw [List.length_cons] at hn
      have hlength : us''.length < n := by omega
      cases form with
      | type =>
        let host := Host.ofType (some maxNesting) m i
        have hobject : Simulates 1 eof (object typeGrammar (value typeGrammar n) n) c'' us''
            ((host.resume .ofBrace).runTo eof us'')
            fun es us' => (host.after (.object es) []).runTo eof us' :=
          simulates_object host (readsValues host typeGrammar_plain eof n) hlength.le hsees' hdepth
        exact .weaken (.bind hobject fun es _ _ _ hsees _ => .pure hsees rfl)
      | binding kind =>
        have hvalue := readsValues (Host.ofBinding (some maxNesting) m kind i)
          literalGrammar_plain eof n [] c'' us'' hlength hsees' hdepth
        exact .weaken (.bind hvalue fun v _ _ _ hsees _ => .pure hsees rfl)

/-- What becomes of a module whose declarations are complete: it is one of the program, unless
it repeats a name. -/
def moduleRead (eof : Token) (i : Ident) (ds : List Declaration) (us : List Token) : Reading :=
  match duplicate? .declaration (ds.map (·.name)) with
  | some e => ⟨[], some e, us⟩
  | none => (State.between.runTo eof us).behind [⟨i, ds⟩]

/-- Declarations up to the closing brace, those before given. -/
theorem simulates_declarations {i : Ident} {ds : List Declaration} (hn : us.length < n)
    (h : c.Sees us eof) (hd : c.depth = 0) :
    Simulates 1 eof (declarations n ds) c us ((State.declarations ⟨i, ds⟩).runTo eof us)
      (moduleRead eof i) := by
  induction n generalizing c us ds with
  | zero => exact absurd hn (Nat.not_lt_zero _)
  | succ n ih =>
    rw [declarations]
    refine .peek h ?_
    cases hbrace : (us.headD eof).isSymbol "\x7d" with
    | true =>
      rw [if_pos rfl]
      obtain ⟨t, us, rfl, ht⟩ := h.exists_cons hbrace
      refine .advance h (.pure h.next ?_)
      simp only [State.runTo, State.run, State.step, ht, if_true, OpenModule.close, moduleRead]
      cases duplicate? .declaration (ds.reverse.map (·.name)) <;> rfl
    | false =>
      rw [if_neg (by decide)]
      refine (simulates_declaration (Nat.lt_succ_iff.1 hn) h hd hbrace).bind
        fun d c' us' hon hsees hshort => ?_
      exact (ih (by omega) hsees (hon.depth.trans hd)).weaken

theorem simulates_singleModule (hn : us.length ≤ n) (h : c.Sees us eof) (hd : c.depth = 0)
    (hus : us ≠ []) :
    Simulates 1 eof (singleModule n) c us (State.between.runTo eof us)
      fun m us' => (State.between.runTo eof us').behind [m] := by
  have hkeyword : Simulates 1 eof (expectKeyword "module" .moduleKeyword) c us
      (State.between.runTo eof us) fun _ us' => State.moduleName.runTo eof us' := by
    refine simulates_expect h rfl (fun hnil => absurd hnil hus) ?_ ?_ ?_
    · intro t ht
      simp [Token.isKeyword, ht]
    · intro t us' _ ha
      have ht : t.isKeyword "module" = false := by simpa using ha
      simp [State.step, ht]
    · rintro t b us' rfl ha
      have ht : t.isKeyword "module" := (Option.ite_none_right_eq_some.1 ha).1
      simp [State.runTo, State.run, State.step, ht]
  rw [singleModule]
  refine hkeyword.bind fun _ c' us' hon hsees hshort => ?_
  have hname : Simulates 1 eof expectIdent c' us' (State.moduleName.runTo eof us')
      fun i us' => (State.moduleBrace i).runTo eof us' := by
    refine simulates_expectIdent hsees rfl rfl ?_ ?_
    · intro t _ _ ht
      simp [State.step, ht]
    · intro t i ht
      simp [State.step, ht]
  refine (hname.bind fun i c'' us'' hon' hsees' hshort' => ?_).weaken
  have hbrace : Simulates 1 eof (expectSymbol "\x7b" .openBrace) c'' us''
      ((State.moduleBrace i).runTo eof us'')
      fun _ us' => (State.declarations ⟨i, []⟩).runTo eof us' :=
    simulates_expectSymbol hsees' rfl rfl fun _ => rfl
  refine (hbrace.bind fun _ c₃ us₃ hon₃ hsees₃ hshort₃ => ?_).weaken
  have hdepth : c₃.depth = 0 := by rw [hon₃.depth, hon'.depth, hon.depth, hd]
  have hlength : us₃.length < n := by omega
  have hdeclarations : Simulates 1 eof (declarations n []) c₃ us₃
      ((State.declarations ⟨i, []⟩).runTo eof us₃) (moduleRead eof i) :=
    simulates_declarations hlength hsees₃ hdepth
  refine (hdeclarations.bind fun ds c₄ us₄ _ hsees₄ _ => ?_).weaken
  exact .ensureUnique hsees₄ (.pure hsees₄ rfl)

/-- Modules up to the end or the first error, those before given. -/
theorem modules_of_sees (ms : List Module) (hn : us.length < n) (h : c.Sees us eof)
    (hd : c.depth = 0) :
    ∃ c', modules n ms c =
        some (((State.between.runTo eof us).behind ms.reverse).result.map (·.modules), c') ∧
      c.Onward c' ∧ c'.Sees (State.between.runTo eof us).unread eof := by
  induction n generalizing c us ms with
  | zero => exact absurd hn (Nat.not_lt_zero _)
  | succ n ih =>
    rw [modules, bind_ok (peek_of_sees h)]
    cases us with
    | nil =>
      rw [List.headD_nil, if_pos h.ending]
      refine ⟨c, ?_, .refl c, h⟩
      rw [State.runTo, State.run, State.atEnd, Reading.behind, List.append_nil]
      rfl
    | cons t us =>
      have ht : t.kind ≠ .endOfInput := h.free t (by simp)
      rw [List.headD_cons, if_neg ht]
      obtain ⟨a, c', us', hm, hon, hsees, hrun⟩ :=
        simulates_singleModule (Nat.lt_succ_iff.1 hn) h hd (by simp)
      cases a with
      | error e =>
        rw [hrun]
        exact ⟨c', bind_error hm, hon, hsees⟩
      | ok m =>
        obtain ⟨hshort, hrun⟩ := hrun
        obtain ⟨c'', hmodules, hon', hsees'⟩ :=
          ih (m :: ms) (by omega) hsees (hon.depth.trans hd)
        refine ⟨c'', (bind_ok hm).trans ?_, hon.trans hon', hrun ▸ hsees'⟩
        rw [hmodules, hrun]
        simp only [Reading.behind, List.reverse_cons, List.append_assoc]

end Programs

end Descent

/-- A call answers like a run of the machine over the tokens ahead, and leaves the cursor where
the run leaves them. The recursion need not go deeper than there are tokens, the end included. -/
theorem Cursor.parseProgram_of_sees {c : Cursor} {us : List Token} {eof : Token} {n : Nat}
    (hn : us.length < n) (h : c.Sees us eof) (hd : c.depth = 0) :
    ∃ c', c.parseProgram n = some ((State.between.runTo eof us).result, c') ∧ c.Onward c' ∧
      c'.Sees (State.between.runTo eof us).unread eof := by
  obtain ⟨c', hmodules, hrest⟩ := Descent.modules_of_sees [] hn h hd
  refine ⟨c', ?_, hrest⟩
  rw [parseProgram, Descent.program]
  generalize State.between.runTo eof us = r at hmodules
  obtain ⟨modules, failure, unread⟩ := r
  cases failure with
  | none => exact (Descent.bind_ok hmodules).trans rfl
  | some e => exact (Descent.bind_error hmodules).trans rfl

end SchemaLang
