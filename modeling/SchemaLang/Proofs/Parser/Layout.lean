import Mathlib.Data.List.Chain
import SchemaLang.Proofs.Lexer.Tokens
import SchemaLang.Proofs.Parser.Acceptance
import SchemaLang.Proofs.Parser.Elsewhere

/-!
# Layout means nothing

Two token lists of one spelling are read alike, as long as the same numbers touch the
minus signs before them. Two runs over such lists stay `Together`: their states differ
in places alone, and a number that has to touch its minus sign does so in both or in
neither. One step keeps this and gives verdicts that differ in places alone.
-/
namespace SchemaLang

/-- All places become one. -/
def forget (_ : Position) : Position := .start

/-- The error with its places forgotten. -/
def ParseError.erase (e : ParseError) : ParseError := e.mapPositions forget

/-- An integer or a decimal, without a sign. -/
def Token.IsNumber (t : Token) : Prop := t.kind = .integer ∨ t.kind = .float

instance (t : Token) : Decidable t.IsNumber :=
  inferInstanceAs (Decidable (t.kind = .integer ∨ t.kind = .float))

/-- A number `t` behind a minus sign `m`, each of them with its counterpart in a second
list, touches it in both lists or in neither. -/
def TouchAlike (m t : Token × Token) : Prop :=
  m.1.isSymbol "-" → t.1.IsNumber →
    (t.1.position = m.1.position.next ↔ t.2.position = m.2.position.next)

instance : DecidableRel TouchAlike := fun m t =>
  inferInstanceAs (Decidable (m.1.isSymbol "-" → t.1.IsNumber →
    (t.1.position = m.1.position.next ↔ t.2.position = m.2.position.next)))

section Spelling

variable {t : Token} {ts us : List Token}

/-- Tokens of one spelling differ in their places alone. -/
theorem map_forget_eq (h : ts.map Token.spelling = us.map Token.spelling) :
    ts.map (Token.mapPositions forget) = us.map (Token.mapPositions forget) := by
  have hmap (l : List Token) : l.map (Token.mapPositions forget) =
      (l.map Token.spelling).map fun x => ⟨x.1, x.2, .start⟩ := by
    rw [List.map_map]
    rfl
  rw [hmap, hmap, h]

theorem exists_cons_of_spelling (h : (t :: ts).map Token.spelling = us.map Token.spelling) :
    ∃ t' us', us = t' :: us' ∧ t.spelling = t'.spelling ∧
      ts.map Token.spelling = us'.map Token.spelling := by
  obtain ⟨t', us', hus, ht, hts⟩ := List.map_eq_cons_iff.1 h.symm
  exact ⟨t', us', hus, ht.symm, hts.symm⟩

/-- Where the end of the input stands is a matter of spelling. -/
theorem spellings_around_end (h : ts.map Token.spelling = us.map Token.spelling) :
    (ts.takeWhile (·.kind ≠ .endOfInput)).map Token.spelling =
        (us.takeWhile (·.kind ≠ .endOfInput)).map Token.spelling ∧
      (ts.dropWhile (·.kind ≠ .endOfInput)).map Token.spelling =
        (us.dropWhile (·.kind ≠ .endOfInput)).map Token.spelling := by
  have hbefore (l : List Token) : (l.map Token.spelling).takeWhile (·.1 ≠ .endOfInput) =
      (l.takeWhile (·.kind ≠ .endOfInput)).map Token.spelling := List.takeWhile_map
  have hfrom (l : List Token) : (l.map Token.spelling).dropWhile (·.1 ≠ .endOfInput) =
      (l.dropWhile (·.kind ≠ .endOfInput)).map Token.spelling := List.dropWhile_map
  rw [← hbefore, ← hbefore, ← hfrom, ← hfrom, h]
  exact ⟨rfl, rfl⟩

end Spelling

section MinusSigns

variable {α : Type}

/-- Only a minus sign has to be touched. -/
theorem Body.Move.keeps_minus {g : LeafGrammar α} {limit : Option Nat} {b : Body α} {t : Token}
    {v : Verdict (Body α) (Tree Ident α)} (h : Move g limit b t v) :
    v.Keeps (fun b => ∀ p ∈ b.place.minus?, t.isSymbol "-" ∧ t.position = p) (fun _ => True)
      fun _ => True := by
  have hcomplete (tree : Tree Ident α) (outer : List (Frame α)) :
      (complete tree outer).Keeps (fun b => ∀ p ∈ b.place.minus?, t.isSymbol "-" ∧ t.position = p)
        (fun _ => True) fun _ => True := by
    cases outer <;> simp [complete, Place.minus?]
  cases h with
  | minus hs ht => simp [Place.minus?, ht]
  | leaf => exact hcomplete _ _
  | negated => exact hcomplete _ _
  | closed => exact hcomplete _ _
  | _ => simp [Place.minus?]

theorem State.Move.keeps_minus {limit : Option Nat} {s : State} {t : Token}
    {v : Verdict State Module} (h : Move limit s t v) :
    v.Keeps (fun u => ∀ p ∈ u.minus?, t.isSymbol "-" ∧ t.position = p) (fun _ => True)
      fun _ => True := by
  cases h with
  | @signs _ _ form _ _ =>
    cases form <;> simp [bodyOf, minus?, Body.ofBrace, Body.ofValue, Place.minus?]
  | fields hb => exact ofBody_keeps hb.keeps_minus (fun _ h => h) (by simp [minus?])
  | value hb => exact ofBody_keeps hb.keeps_minus (fun _ h => h) (by simp [minus?])
  | _ => simp [minus?]

end MinusSigns

section Steps

/-- Only numbers have to touch anything. -/
theorem State.stepGiven_of_not_isNumber {t : Token} (h : ¬ t.IsNumber) (limit : Option Nat)
    (b b' : Bool) (s : State) : s.stepGiven limit b t = s.stepGiven limit b' t := by
  have hnumber : ∀ lexeme p, number? t.kind lexeme p = none := by
    intro lexeme p
    cases hk : t.kind <;> simp_all [Token.IsNumber, number?]
  cases s with
  | fields m name body =>
    obtain ⟨place, outer⟩ := body
    cases place <;> cases b <;> cases b' <;> rfl
  | value m kind name body =>
    obtain ⟨place, outer⟩ := body
    cases place with
    | number minus =>
      cases b <;> cases b' <;>
        simp [stepGiven, Body.stepGiven, literalGrammar, negatedNumber?, hnumber]
    | _ => rfl
  | _ => rfl

/-- Two runs that have come to `s` and `u` and have `ts` and `us` before them differ in
places alone, and a number that comes next touches its minus sign in both or in neither. -/
structure Together (s u : State) (ts us : List Token) : Prop where
  states : s.mapPositions forget = u.mapPositions forget
  spellings : ts.map Token.spelling = us.map Token.spelling
  touching : (ts.zip us).IsChain TouchAlike
  next : ∀ p ∈ s.minus?, ∀ q ∈ u.minus?, ∀ t ∈ (ts.zip us).head?, t.1.IsNumber →
    (t.1.position = p.next ↔ t.2.position = q.next)

namespace Together

variable {s u : State} {t t' : Token} {ts us : List Token}

/-- A number touches its minus sign in both lists or in neither. -/
theorem touches_eq (h : Together s u (t :: ts) (t' :: us)) (hn : t.IsNumber) :
    t.touches s.minus? = t'.touches u.minus? := by
  have hminus : s.minus?.map forget = u.minus?.map forget := by
    rw [← State.minus?_mapPositions, ← State.minus?_mapPositions, h.states]
  cases hs : s.minus? with
  | none =>
    cases hu : u.minus? with
    | none => rfl
    | some q => simp [hs, hu] at hminus
  | some p =>
    cases hu : u.minus? with
    | none => simp [hs, hu] at hminus
    | some q =>
      have hnext : t.position = p.next ↔ t'.position = q.next := h.next p hs q hu (t, t') rfl hn
      exact decide_eq_decide.2 hnext

/-- Both runs make the same of the next token. -/
theorem verdicts (h : Together s u (t :: ts) (t' :: us)) (limit : Option Nat) :
    State.moveVerdict forget (s.step limit t) = State.moveVerdict forget (u.step limit t') := by
  have hsp : t.spelling = t'.spelling := (List.cons.inj h.spellings).1
  have htoken : t.mapPositions forget = t'.mapPositions forget :=
    (List.cons.inj (map_forget_eq h.spellings)).1
  have hgiven (touching : Bool) :
      State.moveVerdict forget (s.stepGiven limit touching t) =
        State.moveVerdict forget (u.stepGiven limit touching t') := by
    rw [← State.stepGiven_mapPositions, ← State.stepGiven_mapPositions, h.states, htoken]
  rw [State.step_eq_stepGiven, State.step_eq_stepGiven]
  -- what is not a number is read alike wherever it stands
  by_cases hn : t.IsNumber
  · rw [h.touches_eq hn]
    exact hgiven _
  · have hn' : ¬ t'.IsNumber := by
      rwa [Token.IsNumber, ← (Prod.mk.inj hsp).1]
    rw [State.stepGiven_of_not_isNumber hn limit _ true,
      State.stepGiven_of_not_isNumber hn' limit _ true]
    exact hgiven true

/-- Behind a token that both take, they are together again. -/
theorem shift (h : Together s u (t :: ts) (t' :: us)) {limit : Option Nat} {s' u' : State}
    (hs : s.step limit t = .shift s') (hu : u.step limit t' = .shift u') :
    Together s' u' ts us := by
  have hv := h.verdicts limit
  have hsm := (State.step_move limit s t).keeps_minus
  have hum := (State.step_move limit u t').keeps_minus
  rw [hs, hu] at hv
  rw [hs, Verdict.keeps_shift] at hsm
  rw [hu, Verdict.keeps_shift] at hum
  have htouching : ((t, t') :: ts.zip us).IsChain TouchAlike := h.touching
  refine ⟨Verdict.shift.inj hv, (List.cons.inj h.spellings).2, htouching.tail, ?_⟩
  rintro p hp q hq t ht hn
  obtain ⟨hminus, rfl⟩ := hsm p hp
  obtain ⟨-, rfl⟩ := hum q hq
  exact htouching.rel_head? ht hminus hn

theorem done (h : Together s u (t :: ts) (t' :: us)) : Together .between .between ts us := by
  have htouching : ((t, t') :: ts.zip us).IsChain TouchAlike := h.touching
  exact ⟨rfl, (List.cons.inj h.spellings).2, htouching.tail, by simp [State.minus?]⟩

/-- What the two runs come to differs in places alone. -/
theorem run (h : Together s u ts us) (limit : Option Nat) (e e' : Position) :
    (s.run limit e ts).mapPositions forget = (u.run limit e' us).mapPositions forget := by
  induction ts generalizing s u us with
  | nil =>
    obtain rfl : us = [] := by simpa using h.spellings.symm
    have hend : (s.atEnd e).map (ParseError.mapPositions forget) =
        (u.atEnd e').map (ParseError.mapPositions forget) := by
      rw [← State.atEnd_mapPositions, ← State.atEnd_mapPositions, h.states]
      rfl
    simp only [State.run, Reading.mapPositions, hend]
  | cons t ts ih =>
    obtain ⟨t', us', rfl, hsp, -⟩ := exists_cons_of_spelling h.spellings
    have hv := h.verdicts limit
    have htokens : (t :: ts).map (Token.mapPositions forget) =
        (t' :: us').map (Token.mapPositions forget) := map_forget_eq h.spellings
    simp only [State.run]
    cases hs : s.step limit t with
    | shift s' =>
      cases hu : u.step limit t' with
      | shift u' => exact ih (h.shift hs hu)
      | _ => simp [hs, hu, State.moveVerdict, Verdict.mapPositions] at hv
    | done m =>
      cases hu : u.step limit t' with
      | done m' =>
        have hm : m.mapPositions forget = m'.mapPositions forget := by
          simpa [hs, hu, State.moveVerdict, Verdict.mapPositions] using hv
        have hr := ih h.done
        simp only [Reading.mapPositions, Reading.mk.injEq] at hr ⊢
        simp only [List.map_cons, hm, hr, and_self]
      | _ => simp [hs, hu, State.moveVerdict, Verdict.mapPositions] at hv
    | fail d =>
      cases hu : u.step limit t' with
      | fail d' =>
        have hd : d.mapPositions forget = d'.mapPositions forget := by
          simpa [hs, hu, State.moveVerdict, Verdict.mapPositions] using hv
        have hunread : ts.map (Token.mapPositions forget) = us'.map (Token.mapPositions forget) :=
          (List.cons.inj htokens).2
        simp only [Reading.mapPositions, Option.map_some, hd, hunread]
      | _ => simp [hs, hu, State.moveVerdict, Verdict.mapPositions] at hv
    | reject =>
      cases hu : u.step limit t' with
      | reject =>
        have hexpected : s.expected = u.expected := by
          rw [← State.expected_mapPositions forget s, h.states, State.expected_mapPositions]
        have hlexeme : t.lexeme = t'.lexeme := (Prod.mk.inj hsp).2
        simp only [Reading.mapPositions, Option.map_some, ParseError.mapPositions, htokens,
          hexpected, hlexeme, forget]
      | _ => simp [hs, hu, State.moveVerdict, Verdict.mapPositions] at hv

end Together

end Steps

section Lists

variable {ts us : List Token}

theorem together_start (hspelling : ts.map Token.spelling = us.map Token.spelling)
    (htouching : (ts.zip us).IsChain TouchAlike) : Together .between .between ts us :=
  ⟨rfl, hspelling, htouching, by simp [State.minus?]⟩

/-- Two parsers begin together, or both lists are refused for the same token. -/
theorem ofTokens_alike (hspelling : ts.map Token.spelling = us.map Token.spelling)
    (htouching : (ts.zip us).IsChain TouchAlike) :
    (∃ p q, Parser.ofTokens ts = .ok p ∧ Parser.ofTokens us = .ok q ∧
      Together .between .between p.unread q.unread) ∨
    ∃ d e, Parser.ofTokens ts = .error d ∧ Parser.ofTokens us = .error e ∧
      d.erase = e.erase := by
  obtain ⟨hbefore, hfrom⟩ := spellings_around_end hspelling
  have hlength : (ts.takeWhile (·.kind ≠ .endOfInput)).length =
      (us.takeWhile (·.kind ≠ .endOfInput)).length := by
    simpa only [List.length_map] using congrArg List.length hbefore
  have hzip : ts.zip us = (ts.takeWhile (·.kind ≠ .endOfInput)).zip
      (us.takeWhile (·.kind ≠ .endOfInput)) ++ (ts.dropWhile (·.kind ≠ .endOfInput)).zip
        (us.dropWhile (·.kind ≠ .endOfInput)) := by
    rw [← List.zip_append hlength, List.takeWhile_append_dropWhile, List.takeWhile_append_dropWhile]
  unfold Parser.ofTokens
  cases hts : ts.dropWhile (·.kind ≠ .endOfInput) with
  | nil =>
    rw [hts] at hfrom
    rw [List.map_eq_nil_iff.1 hfrom.symm]
    exact .inl ⟨_, _, rfl, rfl, together_start hspelling htouching⟩
  | cons t rest =>
    rw [hts] at hfrom
    obtain ⟨t', rest', hus, -, hrest⟩ := exists_cons_of_spelling hfrom
    rw [hus]
    cases rest with
    | nil =>
      rw [List.map_eq_nil_iff.1 hrest.symm]
      rw [hzip] at htouching
      exact .inl ⟨_, _, rfl, rfl, together_start hbefore htouching.left_of_append⟩
    | cons extra more =>
      obtain ⟨extra', more', rfl, hextra, -⟩ := exists_cons_of_spelling hrest
      have hlexeme : extra.lexeme = extra'.lexeme := (Prod.mk.inj hextra).2
      refine .inr ⟨_, _, rfl, rfl, ?_⟩
      simp only [ParseError.erase, ParseError.mapPositions, hlexeme, forget]

end Lists

/-- A number that does not touch its minus sign is another matter. -/
example : parse (negatedTokens.map (Token.mapPositions fun p => ⟨p.column / 28 + 1, p.column⟩)) =
    .error (.unexpectedToken .adjacentNumber "5" ⟨2, 28⟩) := rfl

/-- The same tokens, each down to the minus sign on a line of its own. -/
def spreadTokens : List Token :=
  negatedTokens.map (Token.mapPositions fun p => ⟨min p.column 27, p.column⟩)

end SchemaLang
