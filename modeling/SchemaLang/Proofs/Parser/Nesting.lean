import SchemaLang.Proofs.Parser.Repeats
import SchemaLang.Proofs.Parser.ViablePrefix

/-!
# The nesting limit

A machine with a limit and one without do the same with every token but one: a brace that
opens an object where as many are open as the limit allows (`State.step_of_full`,
`State.step_of_not_full`). How many are open is seen from the tokens alone, so the first
brace past the limit can be told without the machine that counts (`State.run_within_eq_or`).
-/
namespace SchemaLang

variable {α : Type} {n : Nat} {t : Token}

section Steps

/-- An object is due, and so many are open around it at least. -/
def Body.Full (n : Nat) (b : Body α) : Prop :=
  (b.place = .brace ∨ b.place = .value) ∧ n ≤ b.outer.length

def State.Full (n : Nat) : State → Prop
  | .fields _ _ b => b.Full n
  | .value _ _ _ b => b.Full n
  | _ => False

theorem Body.openObject_some (n : Nat) (p : Position) (outer : List (Frame α)) :
    openObject (some n) p outer =
      if n ≤ outer.length then .fail (.nestingTooDeep n p) else .shift ⟨.entry [], outer⟩ := by
  unfold openObject
  by_cases h : n ≤ outer.length <;> simp [Option.filter, h]

variable (g : LeafGrammar α) {b : Body α}

/-- Past the limit a brace is an error, and nothing but the limit is in its way. -/
theorem Body.step_of_full (hb : b.Full n) (ht : t.isSymbol "\x7b") :
    b.step g (some n) t = .fail (.nestingTooDeep n t.position) ∧
      b.step g none t = .shift ⟨.entry [], b.outer⟩ := by
  obtain ⟨place, outer⟩ := b
  obtain ⟨rfl | rfl, hn⟩ : (place = .brace ∨ place = .value) ∧ n ≤ outer.length := hb
  · simp only [step, ht, if_true, openObject_some, if_pos hn]
    exact ⟨trivial, rfl⟩
  · simp only [step, ht, if_true, openObject_some, if_pos hn]
    exact ⟨trivial, rfl⟩

theorem Body.step_of_not_full (h : ¬ (b.Full n ∧ t.isSymbol "\x7b")) :
    b.step g (some n) t = b.step g none t := by
  obtain ⟨place, outer⟩ := b
  have hroom (hp : place = .brace ∨ place = .value) (ht : t.isSymbol "\x7b") :
      openObject (some n) t.position outer = openObject none t.position outer := by
    have hn : ¬ n ≤ outer.length := fun hn => h ⟨⟨hp, hn⟩, ht⟩
    rw [openObject_some, if_neg hn]
    rfl
  cases place with
  | brace =>
    simp only [step]
    split
    · next ht => exact hroom (.inl rfl) ht
    · rfl
  | value =>
    simp only [step]
    split
    · next ht => exact hroom (.inr rfl) ht
    · rfl
  | number | entry | colon | separator => rfl

variable {s : State}

theorem State.step_of_full (hs : s.Full n) (ht : t.isSymbol "\x7b") :
    s.step (some n) t = .fail (.nestingTooDeep n t.position) ∧ ∃ u, s.step none t = .shift u := by
  cases s with
  | fields m i b =>
    obtain ⟨hfail, hshift⟩ := Body.step_of_full typeGrammar hs ht
    simp only [step, hfail, hshift]
    exact ⟨rfl, _, rfl⟩
  | value m kind i b =>
    obtain ⟨hfail, hshift⟩ := Body.step_of_full literalGrammar hs ht
    simp only [step, hfail, hshift]
    exact ⟨rfl, _, rfl⟩
  | _ => exact hs.elim

/-- Any other token is treated alike with and without the limit. -/
theorem State.step_of_not_full (h : ¬ (s.Full n ∧ t.isSymbol "\x7b")) :
    s.step (some n) t = s.step none t := by
  cases s with
  | fields m i b => simp only [step, Body.step_of_not_full typeGrammar h]
  | value m kind i b => simp only [step, Body.step_of_not_full literalGrammar h]
  | _ => rfl

end Steps

section Braces

variable {limit : Option Nat}

/-- Within a body a brace is taken only where an object is due. -/
theorem Body.Move.place_of_brace {g : LeafGrammar α} {b : Body α}
    {v : Verdict (Body α) (Tree Ident α)} (hm : Body.Move g limit b t v) (hg : g.Plain)
    (ht : t.isSymbol "\x7b") (hv : v ≠ .reject) : b.place = .brace ∨ b.place = .value := by
  have hkind := (Token.isSymbol_iff.1 ht).1
  have hother {s : String} (h : t.isSymbol s) : s = "\x7b" :=
    (Token.isSymbol_iff.1 h).2.symm.trans (Token.isSymbol_iff.1 ht).2
  cases hm with
  | opened hp => exact hp
  | tooDeep hp => exact hp
  | minus => exact .inr rfl
  | leaf => exact .inr rfl
  | badLeaf => exact .inr rfl
  | negated _ hl => rcases hg.negated_kind hl with hk | hk <;> simp [hkind] at hk
  | badNegated _ hl => rcases hg.negated_kind hl with hk | hk <;> simp [hkind] at hk
  | closed _ hc => exact absurd (hother hc) (by decide)
  | repeated _ hc => exact absurd (hother hc) (by decide)
  | key hk => simp [(Token.ident?_eq_some_iff.1 hk).1] at hkind
  | colon hc => exact absurd (hother hc) (by decide)
  | comma hc => exact absurd (hother hc) (by decide)
  | reject => exact absurd rfl hv

namespace Outline

variable {o : Outline}

/-- How many objects are open: all blocks but those of modules. A declaration begins where none
is. -/
def openObjects (o : Outline) : Nat := o.blocks.countP (·.scope ≠ .declaration)

/-- Around a place where an object is due, the blocks of its objects are open and no others. -/
theorem FollowsBody.full_iff {scope : Scope} {around : List Block} {b : Body α}
    (h : o.FollowsBody scope around b) (hscope : scope ≠ .declaration)
    (haround : ∀ c ∈ around, c.scope = .declaration)
    (hp : b.place = .brace ∨ b.place = .value) :
    b.Full n ↔ o.inside ≠ .declaration ∧ n ≤ o.openObjects := by
  obtain ⟨place, outer⟩ := b
  obtain ⟨hinside, hblocks⟩ : o.inside = scope ∧ o.blocks = frameBlocks scope outer ++ around := by
    rcases hp with rfl | rfl
    · exact h
    · exact h.2
  have hframes : (frameBlocks scope outer).countP (·.scope ≠ .declaration) = outer.length := by
    rw [List.countP_eq_length.2]
    · exact List.length_map _
    · simp [frameBlocks, hscope]
  have hnone : around.countP (·.scope ≠ .declaration) = 0 := by
    rw [List.countP_eq_zero]
    intro c hc
    simp [haround c hc]
  have hopen : o.openObjects = outer.length := by
    rw [openObjects, hblocks, List.countP_append, hframes, hnone, Nat.add_zero]
  rw [hopen, hinside]
  constructor
  · intro h
    exact ⟨hscope, h.2⟩
  · intro h
    exact ⟨hp, h.2⟩

/-- Where a brace is taken, the limit is reached if and only if the brace opens an object and
the tokens before have left so many open. -/
theorem Follows.full_iff {s : State} (h : o.Follows s) (ht : t.isSymbol "\x7b")
    (hv : s.step limit t ≠ .reject) :
    s.Full n ↔ o.inside ≠ .declaration ∧ n ≤ o.openObjects := by
  have hkind := (Token.isSymbol_iff.1 ht).1
  have hother {s : String} (h : t.isSymbol s) : s = "\x7b" :=
    (Token.isSymbol_iff.1 h).2.symm.trans (Token.isSymbol_iff.1 ht).2
  have hmove := State.step_move limit s t
  generalize s.step limit t = v at hmove hv
  cases hmove with
  | opensModule hk => simp [(Token.isKeyword_iff.1 hk).1] at hkind
  | namesModule hk => simp [(Token.ident?_eq_some_iff.1 hk).1] at hkind
  | bracesModule =>
    have hinside : o.inside = .declaration := h.2
    simp [State.Full, hinside]
  | closesModule hc => exact absurd (hother hc) (by decide)
  | repeated hc => exact absurd (hother hc) (by decide)
  | announces hf =>
    have hk := Form.keyword_of_ofToken? hf
    simp [(Token.isKeyword_iff.1 hk).1] at hkind
  | namesDeclaration hk => simp [(Token.ident?_eq_some_iff.1 hk).1] at hkind
  | @signs t m form i hs =>
    cases form with
    | type =>
      have harrow : t.isSymbol "=>" := hs
      exact absurd (hother harrow) (by decide)
    | binding kind =>
      have hequals : t.isSymbol "=" := hs
      exact absurd (hother hequals) (by decide)
  | @fields t m i b v hb =>
    have hp := hb.place_of_brace typeGrammar_plain ht (fun he => hv (by rw [he]; rfl))
    exact FollowsBody.full_iff h (by decide) (by simp [OpenModule.block]) hp
  | @value t m kind i b v hb =>
    have hp := hb.place_of_brace literalGrammar_plain ht (fun he => hv (by rw [he]; rfl))
    exact FollowsBody.full_iff h (by decide) (by simp [OpenModule.block]) hp
  | reject => exact absurd rfl hv

end Outline

end Braces

section Runs

/-- The state behind a token that is taken. -/
def Verdict.next? : Verdict State Module → Option State
  | shift u => some u
  | done _ => some .between
  | _ => none

theorem Verdict.next?_eq_some_iff {v : Verdict State Module} {u : State} :
    v.next? = some u ↔ v = .shift u ∨ (∃ m, v = .done m) ∧ u = .between := by
  cases v <;> simp [next?, eq_comm]

theorem Verdict.ne_reject {v : Verdict State Module} {u : State} (h : v.next? = some u) :
    v ≠ .reject := by
  rintro rfl
  simp [next?] at h

/-- The machine takes all of the tokens. -/
def Takes (limit : Option Nat) (s : State) (ts : List Token) : Prop :=
  ∃ ms u, Reads limit s ts ms u

variable {limit : Option Nat} {s u : State} {o : Outline} {pre ts : List Token} {p : Position}

theorem takes_nil : Takes limit s [] := ⟨[], s, .nil⟩

theorem takes_cons_iff :
    Takes limit s (t :: ts) ↔ ∃ u, (s.step limit t).next? = some u ∧ Takes limit u ts := by
  constructor
  · rintro ⟨ms, v, h⟩
    cases h with
    | shift hs h => exact ⟨_, Verdict.next?_eq_some_iff.2 (.inl hs), _, _, h⟩
    | done hs h => exact ⟨_, Verdict.next?_eq_some_iff.2 (.inr ⟨⟨_, hs⟩, rfl⟩), _, _, h⟩
  · rintro ⟨u, hu, ms, v, h⟩
    rcases Verdict.next?_eq_some_iff.1 hu with hs | ⟨⟨m, hs⟩, rfl⟩
    · exact ⟨_, _, .shift hs h⟩
    · exact ⟨_, _, .done hs h⟩

/-- Behind the tokens the machine takes a brace without minding the limit. The brace opens an
object type or an object literal, and `n` objects are open. -/
structure OpensBeyond (n : Nat) (s : State) (o : Outline) (pre : List Token) (t : Token) :
    Prop where
  taken : Takes none s (pre ++ [t])
  brace : t.isSymbol "\x7b"
  object : (o.after pre).inside ≠ .declaration
  full : n ≤ (o.after pre).openObjects

/-- No brace among the tokens is taken beyond the limit. -/
def StaysWithin (n : Nat) (s : State) (o : Outline) (ts : List Token) : Prop :=
  ∀ pre t, pre ++ [t] <+: ts → ¬ OpensBeyond n s o pre t

theorem opensBeyond_cons_iff {t' : Token} (hu : (s.step none t).next? = some u) :
    OpensBeyond n s o (t :: pre) t' ↔ OpensBeyond n u (o.next t) pre t' := by
  have htaken : Takes none s (t :: pre ++ [t']) ↔ Takes none u (pre ++ [t']) := by
    rw [List.cons_append, takes_cons_iff]
    simp [hu]
  constructor
  · rintro ⟨h, ht, ho, hn⟩
    exact ⟨htaken.1 h, ht, ho, hn⟩
  · rintro ⟨h, ht, ho, hn⟩
    exact ⟨htaken.2 h, ht, ho, hn⟩

theorem staysWithin_nil : StaysWithin n s o [] := by
  intro pre t h
  simp at h

theorem staysWithin_cons_iff :
    StaysWithin n s o (t :: ts) ↔ ¬ OpensBeyond n s o [] t ∧
      ∀ u, (s.step none t).next? = some u → StaysWithin n u (o.next t) ts := by
  constructor
  · intro h
    refine ⟨h [] t (by simp), ?_⟩
    intro u hu pre t' hpre hbeyond
    exact h (t :: pre) t' (by simpa using hpre) ((opensBeyond_cons_iff hu).2 hbeyond)
  · rintro ⟨hfirst, hrest⟩ pre t' hpre hbeyond
    cases pre with
    | nil =>
      obtain rfl : t' = t := by simpa using hpre
      exact hfirst hbeyond
    | cons t'' pre =>
      obtain rfl : t'' = t := (List.cons_prefix_cons.1 hpre).1
      obtain ⟨u, hu, -⟩ := takes_cons_iff.1 hbeyond.taken
      exact hrest u hu pre t' (List.cons_prefix_cons.1 hpre).2 ((opensBeyond_cons_iff hu).1 hbeyond)

/-- The state tells whether a brace is beyond the limit. -/
theorem Outline.Follows.opensBeyond_iff (h : o.Follows s) :
    OpensBeyond n s o [] t ↔ s.Full n ∧ t.isSymbol "\x7b" := by
  constructor
  · rintro ⟨htaken, ht, ho, hn⟩
    obtain ⟨u, hu, -⟩ := takes_cons_iff.1 htaken
    exact ⟨(h.full_iff ht (Verdict.ne_reject hu)).2 ⟨ho, hn⟩, ht⟩
  · rintro ⟨hs, ht⟩
    obtain ⟨-, u, hstep⟩ := State.step_of_full hs ht
    have hu : (s.step none t).next? = some u := Verdict.next?_eq_some_iff.2 (.inl hstep)
    obtain ⟨ho, hn⟩ := (h.full_iff ht (Verdict.ne_reject hu)).1 hs
    exact ⟨takes_cons_iff.2 ⟨u, hu, takes_nil⟩, ht, ho, hn⟩

theorem Outline.Follows.next (h : o.Follows s) (hu : (s.step limit t).next? = some u) :
    (o.next t).Follows u := by
  have hk := (State.step_move limit s t).keeps_follows h
  rcases Verdict.next?_eq_some_iff.1 hu with hs | ⟨⟨m, hs⟩, rfl⟩
  · rw [hs] at hk
    exact hk.2
  · rw [hs] at hk
    exact hk.2

/-- A token that is treated alike leaves the two runs to what they do behind it. -/
theorem State.run_cons_eq_behind (hstep : s.step (some n) t = s.step none t)
    (hu : (s.step none t).next? = some u) (p : Position) (ts : List Token) :
    ∃ ms, s.run (some n) p (t :: ts) = (u.run (some n) p ts).behind ms ∧
      s.run none p (t :: ts) = (u.run none p ts).behind ms := by
  rcases Verdict.next?_eq_some_iff.1 hu with hs | ⟨⟨m, hs⟩, rfl⟩
  · exact ⟨[], (Reads.one (hstep.trans hs)).run_append p ts, (Reads.one hs).run_append p ts⟩
  · exact ⟨[m], (Reads.done (hstep.trans hs) .nil).run_append p ts,
      (Reads.done hs .nil).run_append p ts⟩

/-- With a limit and without one a run is the same, unless a brace is taken beyond the limit.
The first one that is ends the run with the limit. -/
theorem State.run_within_eq_or (h : o.Follows s) (p : Position) (ts : List Token) :
    StaysWithin n s o ts ∧ s.run (some n) p ts = s.run none p ts ∨
      ∃ pre t post, ts = pre ++ t :: post ∧ StaysWithin n s o pre ∧ OpensBeyond n s o pre t ∧
        (s.run (some n) p ts).failure = some (.nestingTooDeep n t.position) := by
  induction ts generalizing s o with
  | nil => exact .inl ⟨staysWithin_nil, rfl⟩
  | cons t ts ih =>
    by_cases hbeyond : OpensBeyond n s o [] t
    · obtain ⟨hfull, ht⟩ := h.opensBeyond_iff.1 hbeyond
      refine .inr ⟨[], t, ts, rfl, staysWithin_nil, hbeyond, ?_⟩
      rw [run, (State.step_of_full hfull ht).1]
    · have hstep := State.step_of_not_full (mt h.opensBeyond_iff.2 hbeyond)
      cases hu : (s.step none t).next? with
      | none =>
        refine .inl ⟨staysWithin_cons_iff.2 ⟨hbeyond, by simp [hu]⟩, ?_⟩
        -- neither run reads the tokens behind
        rw [run, run, hstep]
        cases hs : s.step none t with
        | shift w => simp [hs, Verdict.next?] at hu
        | done m => simp [hs, Verdict.next?] at hu
        | fail e => rfl
        | reject => rfl
      | some u =>
        have hcons {us : List Token} (hus : StaysWithin n u (o.next t) us) :
            StaysWithin n s o (t :: us) := by
          refine staysWithin_cons_iff.2 ⟨hbeyond, ?_⟩
          intro w hw
          obtain rfl : u = w := Option.some.inj (hu.symm.trans hw)
          exact hus
        obtain ⟨ms, hwith, hwithout⟩ := run_cons_eq_behind hstep hu p ts
        rcases ih (h.next hu) with ⟨hwithin, hsame⟩ | ⟨pre, t', post, rfl, hwithin, hpre, hdeep⟩
        · exact .inl ⟨hcons hwithin, by rw [hwith, hwithout, hsame]⟩
        · refine .inr ⟨t :: pre, t', post, rfl, hcons hwithin,
            (opensBeyond_cons_iff hu).2 hpre, ?_⟩
          rw [hwith]
          exact hdeep

/-- Only the limit of a run makes it end at one. -/
theorem State.mem_limit_of_run {m : Nat} {q : Position}
    (h : (State.between.run limit p ts).result = .error (.nestingTooDeep m q)) : m ∈ limit := by
  rcases run_eq_error h with ⟨x, he⟩ | ⟨pre, t, post, ms, u, rfl, -, hstep | ⟨-, he⟩⟩
  · simp at he
  · have hk : (u.step limit t).Keeps (fun _ => True) (fun _ => True)
        fun e => ∀ m q, e = .nestingTooDeep m q → m ∈ limit := by
      refine (State.step_move limit u t).keeps_error ?_ ?_ ?_ ?_ ?_
      · rintro n hn m q ⟨⟩
        exact hn
      · rintro e he m q rfl
        simp [ParseError.IsDuplicate] at he
      · rintro e he m q rfl
        simpa using typeLeaf?_eq_error he
      · rintro e he m q rfl
        simpa using scalar?_eq_error he
      · rintro p e he m q rfl
        simpa using number?_eq_error he
    rw [hstep] at hk
    exact hk m q rfl
  · simp at he

theorem Outline.Follows.of_takes (h : o.Follows s) (ht : Takes limit s (pre ++ ts)) :
    ∃ u, (o.after pre).Follows u ∧ Takes limit u ts := by
  induction pre generalizing s o with
  | nil => exact ⟨s, h, ht⟩
  | cons t pre ih =>
    obtain ⟨u, hu, htakes⟩ := takes_cons_iff.1 ht
    exact ih (h.next hu) htakes

/-- Within a body no keyword is taken. -/
theorem Body.Move.eq_reject_of_keyword {g : LeafGrammar α} {b : Body α}
    {v : Verdict (Body α) (Tree Ident α)} (hm : Body.Move g limit b t v)
    (hk : t.kind = .keyword) (hl : g.leaf? t = none) (hn : ∀ m, g.negated? m t = none) :
    v = .reject := by
  have hsymbol (s : String) : t.isSymbol s = false :=
    Token.isSymbol_eq_false_of_kind (by simp [hk]) s
  cases hm with
  | opened _ ht => simp [hsymbol] at ht
  | tooDeep _ ht => simp [hsymbol] at ht
  | minus _ ht => simp [hsymbol] at ht
  | leaf h => simp [hl] at h
  | badLeaf h => simp [hl] at h
  | negated _ h => simp [hn] at h
  | badNegated _ h => simp [hn] at h
  | closed _ ht => simp [hsymbol] at ht
  | repeated _ ht => simp [hsymbol] at ht
  | key h => simp [Token.ident?, hk] at h
  | colon ht => simp [hsymbol] at ht
  | comma ht => simp [hsymbol] at ht
  | reject => rfl

/-- No object is open where a keyword is taken. So those that are open further on have been
opened since the declaration began. -/
theorem Outline.Follows.openObjects_of_keyword (h : o.Follows s) (hk : t.kind = .keyword)
    (hv : s.step limit t ≠ .reject) : o.openObjects = 0 := by
  have hmove := State.step_move limit s t
  generalize s.step limit t = v at hmove hv
  have hsymbol (s : String) : t.isSymbol s = false :=
    Token.isSymbol_eq_false_of_kind (by simp [hk]) s
  cases hmove with
  | opensModule =>
    have hblocks : o.blocks = [] := h
    simp [openObjects, hblocks]
  | namesModule ht => simp [Token.ident?, hk] at ht
  | bracesModule ht => simp [hsymbol] at ht
  | closesModule ht => simp [hsymbol] at ht
  | repeated ht => simp [hsymbol] at ht
  | @announces t m =>
    have hblocks : o.blocks = [m.block []] := h
    simp [openObjects, hblocks, OpenModule.block]
  | namesDeclaration ht => simp [Token.ident?, hk] at ht
  | signs ht => simp [hsymbol] at ht
  | fields hb =>
    have hreject := hb.eq_reject_of_keyword hk (by simp [typeGrammar, typeLeaf?, hk]) fun _ => rfl
    exact absurd (by rw [hreject]; rfl) hv
  | value hb =>
    have hreject := hb.eq_reject_of_keyword hk
      (by simp [literalGrammar, scalar?, number?, hk])
      fun m => by simp [literalGrammar, negatedNumber?, number?, hk]
    exact absurd (by rw [hreject]; rfl) hv
  | reject => exact absurd rfl hv

/-- With or without the limit the parser does the same, or the limit is passed. -/
theorem parse_eq_or {q : Parser} (hq : Parser.ofTokens ts = .ok q) :
    StaysWithin 128 .between .start q.unread ∧ parse ts = parseWithin none ts ∨
      ∃ pre t post, q.unread = pre ++ t :: post ∧ StaysWithin 128 .between .start pre ∧
        OpensBeyond 128 .between .start pre t ∧
        parse ts = .error (.nestingTooDeep 128 t.position) := by
  have hstart : Outline.start.Follows .between := rfl
  rw [parse, parseWithin_of_ofTokens hq, parseWithin_of_ofTokens hq]
  rcases State.run_within_eq_or (n := 128) hstart q.endPosition q.unread with
    ⟨hwithin, hsame⟩ | ⟨pre, t, post, hunread, hwithin, hbeyond, hfailure⟩
  · exact .inl ⟨hwithin, congrArg Reading.result hsame⟩
  · refine .inr ⟨pre, t, post, hunread, hwithin, hbeyond, ?_⟩
    rw [Reading.result, maxNesting, hfailure]

/-- The first brace beyond the limit is the only one. -/
theorem StaysWithin.first_unique {pre pre' post post' : List Token} {t t' : Token}
    (h : StaysWithin n s o pre) (h' : StaysWithin n s o pre') (ht : OpensBeyond n s o pre t)
    (ht' : OpensBeyond n s o pre' t') (he : pre ++ t :: post = pre' ++ t' :: post') : t = t' := by
  rcases List.append_eq_append_iff.1 he with ⟨us, rfl, hus⟩ | ⟨us, rfl, hus⟩
  · cases us with
    | nil => exact (List.cons.inj hus).1
    | cons u us =>
      obtain rfl : t = u := (List.cons.inj hus).1
      exact absurd ht (h' pre t (by simp))
  · cases us with
    | nil => exact (List.cons.inj hus).1.symm
    | cons u us =>
      obtain rfl : t' = u := (List.cons.inj hus).1
      exact absurd ht' (h pre' t' (by simp))

theorem parseWithin_none_ne (ts : List Token) (n : Nat) (p : Position) :
    parseWithin none ts ≠ .error (.nestingTooDeep n p) := by
  intro h
  cases hq : Parser.ofTokens ts with
  | error e =>
    obtain ⟨found, q, rfl⟩ := ofTokens_eq_error hq
    rw [parseWithin, hq] at h
    simp [bind, Except.bind] at h
  | ok q =>
    rw [parseWithin_of_ofTokens hq] at h
    simpa using State.mem_limit_of_run h

theorem parse_eq_nestingTooDeep_iff {q : Parser} (hq : Parser.ofTokens ts = .ok q) (n : Nat)
    (p : Position) :
    parse ts = .error (.nestingTooDeep n p) ↔ n = 128 ∧
      ∃ pre t post, q.unread = pre ++ t :: post ∧ t.position = p ∧
        OpensBeyond 128 .between .start pre t ∧ StaysWithin 128 .between .start pre := by
  rcases parse_eq_or hq with
    ⟨hwithin, hsame⟩ | ⟨pre, t, post, hunread, hwithin, hbeyond, hdeep⟩
  · constructor
    · intro h
      exact absurd (hsame.symm.trans h) (parseWithin_none_ne ts n p)
    · rintro ⟨-, pre, t, post, hunread, -, hbeyond, -⟩
      rw [hunread] at hwithin
      exact absurd hbeyond (hwithin pre t (by simp))
  · constructor
    · intro h
      obtain ⟨rfl, rfl⟩ : 128 = n ∧ t.position = p := by simpa [hdeep] using h
      exact ⟨rfl, pre, t, post, hunread, rfl, hbeyond, hwithin⟩
    · rintro ⟨rfl, pre', t', post', hunread', rfl, hbeyond', hwithin'⟩
      rw [hdeep, hwithin.first_unique hwithin' hbeyond hbeyond' (hunread.symm.trans hunread')]

/-- Objects beside each other do not count. -/
theorem parse_eq_ok_iff_nestedWithin (ts : List Token) (P : Program) :
    parse ts = .ok P ↔ parseWithin none ts = .ok P ∧ P.NestedWithin 128 := by
  cases hq : Parser.ofTokens ts with
  | error e => simp [parse, parseWithin, hq, bind, Except.bind]
  | ok q =>
    rw [parse, parseWithin_of_ofTokens hq, parseWithin_of_ofTokens hq, run_result_eq_ok_iff,
      run_result_eq_ok_iff, maxNesting, fits_iff, fits_none_iff, and_assoc]

theorem openObjects_of_takes_keyword (h : Takes none .between (pre ++ [t]))
    (hk : t.kind = .keyword) : (Outline.start.after pre).openObjects = 0 := by
  have hstart : Outline.start.Follows .between := rfl
  obtain ⟨u, hu, ht⟩ := hstart.of_takes h
  obtain ⟨v, hv, -⟩ := takes_cons_iff.1 ht
  exact hu.openObjects_of_keyword hk (Verdict.ne_reject hv)

end Runs

/-- The limit changes nothing but what is nested too deep. The parser without one never
reports it, and the two agree unless the parser with the limit reports it. It does so at a
brace exactly if, without a limit, the brace would be taken and open an object type or an
object literal while 128 are open, and no brace in front of it would. All that are open have been
opened since the last keyword, which begins the declaration. Objects beside each other do not
count: what is parsed without a limit is parsed with it exactly if its objects are no more than
128 deep. -/
theorem parse_nesting (ts : List Token) :
    ((∀ n p, parse ts ≠ .error (.nestingTooDeep n p)) → parse ts = parseWithin none ts) ∧
    (∀ n p, parseWithin none ts ≠ .error (.nestingTooDeep n p)) ∧
    (∀ n p, parse ts = .error (.nestingTooDeep n p) ↔ n = 128 ∧
      ∃ q pre t post, Parser.ofTokens ts = .ok q ∧ q.unread = pre ++ t :: post ∧
        t.position = p ∧ OpensBeyond 128 .between .start pre t ∧
        StaysWithin 128 .between .start pre) ∧
    (∀ pre t, Takes none .between (pre ++ [t]) → t.kind = .keyword →
      (Outline.start.after pre).openObjects = 0) ∧
    ∀ P, parse ts = .ok P ↔ parseWithin none ts = .ok P ∧ P.NestedWithin 128 := by
  refine ⟨?_, parseWithin_none_ne ts, ?_, fun _ _ => openObjects_of_takes_keyword,
    parse_eq_ok_iff_nestedWithin ts⟩
  · intro hnot
    cases hq : Parser.ofTokens ts with
    | error e => simp [parse, parseWithin, hq, bind, Except.bind]
    | ok q =>
      rcases parse_eq_or hq with ⟨-, hsame⟩ | ⟨-, t, -, -, -, -, hdeep⟩
      · exact hsame
      · exact absurd hdeep (hnot 128 t.position)
  · intro n p
    cases hq : Parser.ofTokens ts with
    | error e =>
      obtain ⟨found, q, rfl⟩ := ofTokens_eq_error hq
      simp [parse, parseWithin, hq, bind, Except.bind]
    | ok q => simpa using parse_eq_nestingTooDeep_iff hq n p

end SchemaLang
