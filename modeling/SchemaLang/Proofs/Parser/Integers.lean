import SchemaLang.Proofs.Parser.Acceptance

/-!
# Integers where a literal is due

A literal is due in a binding, behind its equals sign or behind the colon of a key. An integer
fills the place or is refused for its range. Behind a minus sign it does so with the sign, if
it stands one column further on; anywhere else it is not what is expected there.
-/
namespace SchemaLang

/-- A place for a literal: the binding that it is in and the objects that are open there, the
innermost first. -/
structure LiteralPlace where
  openModule : OpenModule
  kind : BindingKind
  name : Ident
  outer : List (Frame Scalar)

namespace LiteralPlace

variable (x : LiteralPlace)

/-- The literal has not begun. -/
def due : State := .value x.openModule x.kind x.name ⟨.value, x.outer⟩

/-- The literal has begun with a minus sign. -/
def signed (minus : Position) : State :=
  .value x.openModule x.kind x.name ⟨.number minus, x.outer⟩

/-- The literal is complete, and so is the binding if no object is open. -/
def filled (v : Scalar) : State :=
  match x.outer with
  | [] => .declarations (x.openModule.add (.binding x.kind x.name (.leaf v)))
  | f :: outer =>
    .value x.openModule x.kind x.name ⟨.separator ((f.key, .leaf v) :: f.entries), outer⟩

/-- What an integer of the given spelling does to the place; if it is refused, then at `p`. -/
def numeral (text : String) (p : Position) : Verdict State Module :=
  match Numeral.int64? text with
  | some n => .shift (x.filled (.integer n))
  | none => .fail (.invalidLiteral text p)

end LiteralPlace

theorem LiteralPlace.due_inj {x y : LiteralPlace} (h : x.due = y.due) : x = y := by
  cases x
  cases y
  cases h
  rfl

/-- These are all places where a literal is expected. -/
theorem State.expected_eq_literal_iff {s : State} :
    s.expected = .literal ↔ ∃ x : LiteralPlace, s = x.due := by
  constructor
  · intro h
    cases s with
    | value m kind i b =>
      obtain ⟨place, outer⟩ := b
      cases place with
      | value => exact ⟨⟨m, kind, i, outer⟩, rfl⟩
      | _ => exact nomatch h
    | fields m i b =>
      obtain ⟨place, outer⟩ := b
      cases place <;> exact nomatch h
    | sign m form i => cases form <;> exact nomatch h
    | _ => exact nomatch h
  · rintro ⟨x, rfl⟩
    rfl

namespace LiteralPlace

variable {limit : Option Nat} {x : LiteralPlace} {t : Token} {m : Position}

/-- The declaration around the place. -/
def host (limit : Option Nat) (x : LiteralPlace) : Host limit literalGrammar :=
  .ofBinding limit x.openModule x.kind x.name

theorem after_eq_filled (v : Scalar) : (x.host limit).after (.leaf v) x.outer = x.filled v := by
  obtain ⟨m, kind, i, outer⟩ := x
  cases outer <;> rfl

/-- The machine reads a number where a literal is due as it reads the numeral. -/
theorem step_of_number? {b : Body Scalar} {text : String} {p : Position}
    {leaf : Except ParseError Scalar} (hleaf : number? .integer text p = some leaf)
    (hb : b.step literalGrammar limit t = Body.completeLeaf leaf x.outer) :
    ((x.host limit).resume b).step limit t = x.numeral text p := by
  unfold numeral
  cases hn : Numeral.int64? text with
  | some n =>
    obtain rfl : .ok (.integer n) = leaf := by simpa [number?, hn] using hleaf
    rw [(x.host limit).step_complete hb, after_eq_filled]
  | none =>
    obtain rfl : .error (.invalidLiteral text p) = leaf := by simpa [number?, hn] using hleaf
    exact (x.host limit).step_fail hb

theorem step_integer (ht : t.kind = .integer) :
    x.due.step limit t = x.numeral t.lexeme t.position := by
  obtain ⟨leaf, hleaf⟩ : ∃ leaf, number? .integer t.lexeme t.position = some leaf := ⟨_, rfl⟩
  have hscalar : literalGrammar.leaf? t = some leaf := by
    rw [← hleaf, ← ht]
    exact scalar?_of_number (.inl ht)
  have hsymbol (s : String) : t.isSymbol s = false :=
    Token.isSymbol_eq_false_of_kind (by simp [ht]) s
  refine step_of_number? hleaf ?_
  simp only [Body.step, hsymbol, Bool.and_false, hscalar, if_neg Bool.false_ne_true]

theorem step_minus (ht : t.isSymbol "-") : x.due.step limit t = .shift (x.signed t.position) :=
  (x.host limit).step_shift (Body.step_minus rfl ht)

/-- Behind the minus sign, with nothing between. -/
theorem step_touching (ht : t.kind = .integer) (hp : t.position = m.next) :
    (x.signed m).step limit t = x.numeral ("-" ++ t.lexeme) m := by
  obtain ⟨leaf, hleaf⟩ : ∃ leaf, number? .integer ("-" ++ t.lexeme) m = some leaf := ⟨_, rfl⟩
  have hnegated : literalGrammar.negated? m t = some leaf := by
    rw [← hleaf, ← ht]
    rfl
  refine step_of_number? hleaf ?_
  simp only [Body.step, if_pos hp, hnegated]

theorem step_apart (hp : t.position ≠ m.next) : (x.signed m).step limit t = .reject := by
  simp [signed, State.step, Body.step, hp, State.ofBody]

end LiteralPlace

/-- Within the limits of the parser the machine takes the tokens and goes on in the state. -/
def Reaches (front : List Token) (s : State) : Prop :=
  ∃ modules, Reads (some maxNesting) .between front modules s

namespace Reaches

variable {front rest : List Token} {s u : State} {t : Token}

theorem snoc (h : Reaches front s) (ht : s.step (some maxNesting) t = .shift u) :
    Reaches (front ++ [t]) u := by
  obtain ⟨modules, hreads⟩ := h
  exact ⟨modules ++ [], hreads.append (.one ht)⟩

/-- What the machine makes of a token of the list decides how parsing the list goes on. -/
theorem parse_eq (h : Reaches front s) (hends : EndsOnly (front ++ t :: rest))
    (ht : t.kind ≠ .endOfInput) :
    ∃ modules p us, parse (front ++ t :: rest) =
      ((s.run (some maxNesting) p (t :: us)).behind modules).result := by
  obtain ⟨modules, hreads⟩ := h
  obtain ⟨p, hp⟩ := ofTokens_of_endsOnly hends
  have hfront : ∀ q ∈ front, q.kind ≠ .endOfInput := by
    intro q hq
    refine hends q ?_
    rw [List.dropLast_append_cons]
    exact List.mem_append_left _ hq
  have htokens : withoutEnd (front ++ t :: rest) = front ++ t :: withoutEnd rest := by
    have hfixed := withoutEnd_of_forall hfront
    rw [withoutEnd] at hfixed
    rw [withoutEnd, List.filter_append, hfixed, List.filter_cons_of_pos (by simpa using ht)]
    rfl
  refine ⟨modules, p, withoutEnd rest, ?_⟩
  rw [parse, parseWithin_of_ofTokens hp, htokens, hreads.run_append]

theorem parse_of_fail {e : ParseError} (h : Reaches front s)
    (hends : EndsOnly (front ++ t :: rest)) (ht : t.kind ≠ .endOfInput)
    (hstep : s.step (some maxNesting) t = .fail e) : parse (front ++ t :: rest) = .error e := by
  obtain ⟨modules, p, us, hparse⟩ := h.parse_eq hends ht
  rw [hparse, State.run, hstep]
  rfl

theorem parse_of_reject (h : Reaches front s) (hends : EndsOnly (front ++ t :: rest))
    (ht : t.kind ≠ .endOfInput) (hstep : s.step (some maxNesting) t = .reject) :
    parse (front ++ t :: rest) = .error (.unexpectedToken s.expected t.lexeme t.position) := by
  obtain ⟨modules, p, us, hparse⟩ := h.parse_eq hends ht
  rw [hparse, State.run, hstep]
  rfl

/-- A literal is due right behind an equals sign or a colon. -/
theorem exists_last_of_due {x : LiteralPlace} (h : Reaches front x.due) :
    ∃ before q, front = before ++ [q] ∧ (q.isSymbol "=" ∨ q.isSymbol ":") := by
  obtain ⟨modules, hreads⟩ := h
  obtain ⟨us, _, rfl, -, -, hread, -⟩ := hreads.sound
  generalize hs : x.due = s at hread
  cases hread with
  | @value ts _ _ _ _ _ _ _ hheads hbody =>
    obtain ⟨-, -, -, rfl⟩ := State.value.inj hs
    cases hheads with
    | @mk k n a _ _ ha =>
      cases hbody with
      | value haround =>
        generalize x.outer = outer at haround
        cases haround with
        | nil => exact ⟨us ++ ts ++ [k, n], a, by simp, .inl ha⟩
        | @cons vs ws c _ _ _ _ hc =>
          exact ⟨us ++ ts ++ [k, n, a] ++ vs ++ ws, c, by simp, .inr hc⟩
      | opened _ hopened => exact nomatch hopened
  | _ => exact nomatch hs

end Reaches

end SchemaLang
