import SchemaLang.Proofs.Parser.Repeats

/-!
# Errors speak of tokens

Apart from an early end, an error is placed at a token that has been read, and whatever
text it shows is the lexeme of such a token. A number behind a minus sign is placed at
the sign, a repeated name at its second occurrence.
-/
namespace SchemaLang

open Grammar

variable {α : Type} {limit : Option Nat} {all : List Token}

/-- The place and the text of the error are taken from tokens of the list. -/
inductive ParseError.Quotes (all : List Token) : ParseError → Prop where
  | unexpected {x : Expected} {t : Token} :
      t ∈ all → Quotes all (.unexpectedToken x t.lexeme t.position)
  | repeated {scope : Scope} {t u : Token} :
      t ∈ all → u ∈ all → t.lexeme = u.lexeme →
      Quotes all (.duplicateName u.lexeme scope t.position u.position)
  | number {t : Token} : t ∈ all → Quotes all (.invalidLiteral t.lexeme t.position)
  | negated {m t : Token} :
      m ∈ all → t ∈ all → Quotes all (.invalidLiteral ("-" ++ t.lexeme) m.position)
  | tooDeep {n : Nat} {t : Token} : t ∈ all → Quotes all (.nestingTooDeep n t.position)

/-- The error stands where one of the tokens does. -/
theorem ParseError.Quotes.exists_position {e : ParseError} (h : e.Quotes all) :
    ∃ t ∈ all, t.position = e.position := by
  cases h with
  | unexpected ht => exact ⟨_, ht, rfl⟩
  | repeated _ hu _ => exact ⟨_, hu, rfl⟩
  | number ht => exact ⟨_, ht, rfl⟩
  | negated hm _ => exact ⟨_, hm, rfl⟩
  | tooDeep ht => exact ⟨_, ht, rfl⟩

section Names

variable {o : Outline} {ts : List Token}

/-- The names of the open blocks are tokens of the list. -/
def Outline.NamedBy (all : List Token) (o : Outline) : Prop :=
  ∀ b ∈ o.blocks, ∀ i ∈ b.names, ∃ t ∈ all, Names t i

theorem Outline.NamedBy.next (h : o.NamedBy all) {t : Token} (ht : t ∈ all) :
    (o.next t).NamedBy all := by
  unfold NamedBy Outline.next
  split
  · exact List.forall_mem_cons.2 ⟨by simp, h⟩
  · split
    · exact fun b hb => h b (List.mem_of_mem_tail hb)
    · cases hblocks : o.blocks with
      | nil => simp
      | cons b bs =>
        unfold NamedBy at h
        rw [hblocks] at h
        obtain ⟨hb, hbs⟩ := List.forall_mem_cons.1 h
        refine List.forall_mem_cons.2 ⟨?_, hbs⟩
        intro i hi
        rcases List.mem_append.1 hi with hi | hi
        · exact hb i hi
        · unfold names at hi
          split at hi
          · exact ⟨t, ht, Token.ident?_eq_some_iff.1 (Option.mem_toList.1 hi)⟩
          · simp at hi

theorem Outline.exists_names_of_mem_closed (h : o.NamedBy all) (hts : ∀ t ∈ ts, t ∈ all) :
    ∀ b ∈ o.closed ts, ∀ i ∈ b.names, ∃ t ∈ all, Names t i := by
  induction ts generalizing o with
  | nil => simp [closed]
  | cons t ts ih =>
    obtain ⟨ht, hts⟩ := List.forall_mem_cons.1 hts
    intro b hb
    rcases List.mem_append.1 hb with hb | hb
    · unfold closes at hb
      split at hb
      · exact h b (List.mem_of_mem_head? (Option.mem_toList.1 hb))
      · simp at hb
    · exact ih (h.next ht) hts b hb

/-- The report on a block names two tokens. -/
theorem ReportsFirst.quotes {e : ParseError} (h : ReportsFirst ts e) : e.Quotes ts := by
  obtain ⟨earlier, b, later, hblocks, -, hreports⟩ := h
  have hstart : Outline.start.NamedBy ts := by simp [Outline.NamedBy, Outline.start]
  have hnames := Outline.exists_names_of_mem_closed hstart (fun _ ht => ht) b
    (by rw [← blocksOf, hblocks]; simp)
  obtain ⟨before, first, between, second, after, hlist, -, hname, rfl⟩ := hreports
  obtain ⟨t, ht, -, rfl⟩ := hnames first (by simp [hlist])
  obtain ⟨u, hu, -, rfl⟩ := hnames second (by simp [hlist])
  exact .repeated ht hu hname

end Names

section Moves

variable {ts : List Token} {t : Token}

/-- A move that fails quotes tokens, or has found a repeated name. -/
theorem Body.Move.keeps_quotes {g : LeafGrammar α} {bare : Prop} {b : Body α}
    {v : Verdict (Body α) (Tree Ident α)} (hm : Body.Move g limit b t v)
    (h : ReadBody g bare ts b) (ht : t ∈ all) (hts : ∀ u ∈ ts, u ∈ all)
    (hl : ∀ e, g.leaf? t = some (.error e) → e.Quotes all)
    (hn : ∀ m ∈ all, ∀ e, g.negated? m.position t = some (.error e) → e.Quotes all) :
    v.Keeps (fun _ => True) (fun _ => True) fun e => e.IsDuplicate ∨ e.Quotes all := by
  cases hm with
  | opened => trivial
  | tooDeep => exact .inr (.tooDeep ht)
  | minus => trivial
  | @leaf outer => cases outer <;> trivial
  | badLeaf he => exact .inr (hl _ he)
  | @negated outer => cases outer <;> trivial
  | badNegated _ he =>
    -- the sign has been read, and its place kept
    cases h with
    | number => exact .inr (hn _ (hts _ (by simp)) _ he)
    | opened _ ho => cases ho
  | @closed _ _ outer => cases outer <;> trivial
  | repeated _ _ he => exact .inl (duplicate?_isDuplicate he)
  | key => trivial
  | colon => trivial
  | comma => trivial
  | reject => trivial

theorem State.Move.keeps_quotes {s : State} {v : Verdict State Module}
    (hm : State.Move limit s t v) (h : ReadState ts s) (ht : t ∈ all) (hts : ∀ u ∈ ts, u ∈ all) :
    v.Keeps (fun _ => True) (fun _ => True) fun e => e.IsDuplicate ∨ e.Quotes all := by
  cases hm with
  | opensModule => trivial
  | namesModule => trivial
  | bracesModule => trivial
  | closesModule => trivial
  | repeated _ he => exact .inl (OpenModule.close_isDuplicate he)
  | announces => trivial
  | namesDeclaration => trivial
  | signs => trivial
  | fields hb =>
    cases h with
    | fields _ _ hus =>
      refine ofBody_keeps (hb.keeps_quotes hus ht (fun u hu => hts u (by simp [hu])) ?_ ?_)
        (fun _ _ => trivial) fun _ _ => trivial
      · intro e he
        rw [typeLeaf?_eq_error he]
        exact .unexpected ht
      · simp [typeGrammar]
  | value hb =>
    cases h with
    | value _ _ hus =>
      refine ofBody_keeps (hb.keeps_quotes hus ht (fun u hu => hts u (by simp [hu])) ?_ ?_)
        (fun _ _ => trivial) fun _ _ => trivial
      · intro e he
        rw [scalar?_eq_error he]
        exact .number ht
      · intro m hm e he
        rw [number?_eq_error he]
        exact .negated hm ht
  | reject => trivial

end Moves

/-- The error of a run is an early end, or it quotes the tokens. -/
theorem run_quotes {p : Position} {ts : List Token} {e : ParseError}
    (h : (State.between.run limit p ts).result = .error e) :
    (∃ x, e = .unexpectedEnd x p) ∨ e.Quotes ts := by
  rcases State.run_eq_error h with hend | ⟨pre, t, post, ms, u, rfl, hr, hstep | ⟨-, rfl⟩⟩
  · exact .inl hend
  · refine .inr ?_
    obtain ⟨us, vs, rfl, -, -, hread, -⟩ := hr.sound
    have hk : (u.step limit t).Keeps (fun _ => True) (fun _ => True) fun e =>
        e.IsDuplicate ∨ e.Quotes (us ++ vs ++ t :: post) :=
      (State.step_move limit u t).keeps_quotes hread (by simp) fun w hw => by simp [hw]
    rw [hstep] at hk
    rcases hk with hduplicate | hquotes
    · exact (run_reportsFirst h hduplicate).quotes
    · exact hquotes
  · exact .inr (.unexpected (by simp))

end SchemaLang
