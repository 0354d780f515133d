import SchemaLang.Proofs.Parser.Grammar
import SchemaLang.Proofs.Parser.Rules

/-!
# Leaves

The machine knows a leaf by its first token, by itself or behind a minus sign.
`Spells` says which tokens it takes so; for types they are the type names of the
grammar and for literals its scalars.
-/
namespace SchemaLang

open Grammar

variable {α : Type}

namespace Token

theorem ident?_eq_some_iff {t : Token} {i : Ident} : t.ident? = some i ↔ Names t i := by
  unfold ident? Names
  split
  · next h => simp only [h, Option.some.injEq, true_and]; exact eq_comm
  · next h => simp [h]

theorem isSymbol_iff {t : Token} {s : String} :
    t.isSymbol s = true ↔ t.kind = .symbol ∧ t.lexeme = s := by
  simp [isSymbol]

theorem isKeyword_iff {t : Token} {s : String} :
    t.isKeyword s = true ↔ t.kind = .keyword ∧ t.lexeme = s := by
  simp [isKeyword]

/-- One token is one symbol at most. -/
theorem isSymbol_eq_false {t : Token} {s : String} (h : t.isSymbol s) (s' : String)
    (hne : s ≠ s') : t.isSymbol s' = false := by
  have hs := (isSymbol_iff.1 h).2
  simp [isSymbol, hs, hne]

theorem isSymbol_eq_false_of_kind {t : Token} (h : t.kind ≠ .symbol) (s : String) :
    t.isSymbol s = false := by
  simp [isSymbol, h]

end Token

/-- The tokens that the machine takes as the leaf. -/
inductive LeafGrammar.Spells (g : LeafGrammar α) : List Token → α → Prop where
  | plain {t : Token} {a : α} : g.leaf? t = some (.ok a) → g.Spells [t] a
  | negated {m t : Token} {a : α} :
      g.signed → m.isSymbol "-" → t.position = m.position.next →
      g.negated? m.position t = some (.ok a) → g.Spells [m, t] a

theorem Primitive.ofName?_eq_some_iff {name : String} {p : Primitive} :
    Primitive.ofName? name = some p ↔ name = p.name := by
  constructor
  · intro h
    have := List.find?_some h
    simpa using (of_decide_eq_true this).symm
  · rintro rfl
    cases p <;> rfl

theorem typeLeaf?_eq_ok_iff {t : Token} {a : TypeLeaf} :
    typeLeaf? t = some (.ok a) ↔ TypeText [t] a := by
  constructor
  · intro h
    unfold typeLeaf? at h
    split at h
    · next hk =>
      split at h
      · next p hp =>
        obtain rfl : TypeLeaf.primitive p = a := by simpa using h
        exact .primitive hk (Primitive.ofName?_eq_some_iff.1 hp)
      · simp at h
    · next hk =>
      obtain rfl : TypeLeaf.named ⟨t.lexeme, t.position⟩ = a := by simpa using h
      exact .named ⟨hk, rfl⟩
    · simp at h
  · intro h
    cases h with
    | primitive hk hl =>
      simp [typeLeaf?, hk, Primitive.ofName?_eq_some_iff.2 hl]
    | named hn =>
      obtain ⟨hk, rfl⟩ := hn
      simp [typeLeaf?, hk]

theorem typeGrammar_spells : typeGrammar.Spells = TypeText := by
  funext ts a
  apply propext
  constructor
  · intro h
    cases h with
    | plain h => exact typeLeaf?_eq_ok_iff.1 h
    | negated hs => simp [typeGrammar] at hs
  · intro h
    cases h with
    | primitive hk hl => exact .plain (typeLeaf?_eq_ok_iff.2 (.primitive hk hl))
    | named hn => exact .plain (typeLeaf?_eq_ok_iff.2 (.named hn))

/-- A number in range, by the class of its token. -/
theorem number?_eq_ok_iff {kind : TokenKind} {text : String} {p : Position} {v : Scalar} :
    number? kind text p = some (.ok v) ↔
      (kind = .integer ∧ ∃ n, Numeral.int64? text = some n ∧ v = .integer n) ∨
      (kind = .float ∧ ∃ x, Numeral.Binary64.ofText? text = some x ∧ v = .float x) := by
  cases kind with
  | integer =>
    cases hn : Numeral.int64? text with
    | none => simp [number?, hn]
    | some n => simp [number?, hn, eq_comm]
  | float =>
    cases hx : Numeral.Binary64.ofText? text with
    | none => simp [number?, hx]
    | some x => simp [number?, hx, eq_comm]
  | _ => simp [number?]

/-- A number that is refused is out of range. -/
theorem number?_eq_error {kind : TokenKind} {text : String} {p : Position} {e : ParseError}
    (h : number? kind text p = some (.error e)) : e = .invalidLiteral text p := by
  cases kind with
  | integer =>
    cases hn : Numeral.int64? text with
    | none => simpa [number?, hn] using h.symm
    | some n => simp [number?, hn] at h
  | float =>
    cases hx : Numeral.Binary64.ofText? text with
    | none => simpa [number?, hx] using h.symm
    | some x => simp [number?, hx] at h
  | _ => simp [number?] at h

theorem scalar?_eq_error {t : Token} {e : ParseError} (h : scalar? t = some (.error e)) :
    e = .invalidLiteral t.lexeme t.position := by
  unfold scalar? at h
  split at h
  · simp at h
  · simp at h
  · exact number?_eq_error h

theorem typeLeaf?_eq_error {t : Token} {e : ParseError} (h : typeLeaf? t = some (.error e)) :
    e = .unexpectedToken .type t.lexeme t.position := by
  unfold typeLeaf? at h
  split at h
  · split at h
    · simp at h
    · simpa using h.symm
  · simp at h
  · simp at h

/-- Numbers of the grammar, when the tokens and their text are known. -/
theorem scalarText_of_number {ts : List Token} {kind : TokenKind} {text : String} {p : Position}
    {v : Scalar} (ht : NumberText ts kind text) (h : number? kind text p = some (.ok v)) :
    ScalarText ts v := by
  rcases number?_eq_ok_iff.1 h with ⟨rfl, n, hn, rfl⟩ | ⟨rfl, x, hx, rfl⟩
  · exact .integer ht hn
  · exact .float ht hx

theorem scalar?_of_number {t : Token} (h : t.kind = .integer ∨ t.kind = .float) :
    scalar? t = number? t.kind t.lexeme t.position := by
  rcases h with h | h <;> simp [scalar?, h]

theorem literalGrammar_spells_of_number {ts : List Token} {kind : TokenKind} {text : String}
    {v : Scalar} (ht : NumberText ts kind text)
    (h : ∀ p, number? kind text p = some (.ok v)) : literalGrammar.Spells ts v := by
  cases ht with
  | @plain t =>
    refine .plain ?_
    have hk : t.kind = .integer ∨ t.kind = .float := by
      rcases number?_eq_ok_iff.1 (h t.position) with ⟨hk, -⟩ | ⟨hk, -⟩
      · exact .inl hk
      · exact .inr hk
    simp only [literalGrammar]
    rw [scalar?_of_number hk]
    exact h t.position
  | negated hm hp => exact .negated rfl hm hp (h _)

theorem literalGrammar_spells : literalGrammar.Spells = ScalarText := by
  funext ts v
  apply propext
  constructor
  · intro h
    cases h with
    | @plain t _ h =>
      simp only [literalGrammar, scalar?] at h
      split at h
      · next hk =>
        obtain rfl : Scalar.string (t.stringValue?.getD "") = v := by simpa using h
        exact .string hk
      · next hk =>
        obtain rfl : Scalar.boolean (t.lexeme = "true") = v := by simpa using h
        exact .boolean hk
      · exact scalarText_of_number .plain h
    | negated _ hm hp h => exact scalarText_of_number (.negated hm hp) h
  · intro h
    cases h with
    | integer ht hn =>
      exact literalGrammar_spells_of_number ht fun _ => number?_eq_ok_iff.2 (.inl ⟨rfl, _, hn, rfl⟩)
    | float ht hx =>
      exact literalGrammar_spells_of_number ht fun _ => number?_eq_ok_iff.2 (.inr ⟨rfl, _, hx, rfl⟩)
    | string hk => exact .plain (by simp [literalGrammar, scalar?, hk])
    | boolean hk => exact .plain (by simp [literalGrammar, scalar?, hk])

/-- No leaf begins with a symbol. -/
theorem typeGrammar_leaf?_symbol {t : Token} (h : t.kind = .symbol) : typeGrammar.leaf? t = none := by
  simp [typeGrammar, typeLeaf?, h]

theorem literalGrammar_leaf?_symbol {t : Token} (h : t.kind = .symbol) :
    literalGrammar.leaf? t = none := by
  simp [literalGrammar, scalar?, number?, h]

/-- No symbol and no end is a leaf or part of a signed one, no name is signed, and nothing that
is wrong with a leaf is a repeated name. -/
structure LeafGrammar.Plain (g : LeafGrammar α) : Prop where
  leaf_kind : ∀ {t l}, g.leaf? t = some l → t.kind ≠ .symbol ∧ t.kind ≠ .endOfInput
  leaf_error : ∀ {t e}, g.leaf? t = some (.error e) → ¬ e.IsDuplicate
  negated_kind : ∀ {m t l}, g.negated? m t = some l → t.kind = .integer ∨ t.kind = .float
  negated_error : ∀ {m t e}, g.negated? m t = some (.error e) → ¬ e.IsDuplicate

theorem typeGrammar_plain : typeGrammar.Plain where
  leaf_kind h := by
    refine ⟨fun hk => ?_, fun hk => ?_⟩
    · simp [typeGrammar_leaf?_symbol hk] at h
    · simp [typeGrammar, typeLeaf?, hk] at h
  leaf_error h := by
    rw [typeLeaf?_eq_error h]
    simp [ParseError.IsDuplicate]
  negated_kind h := by simp [typeGrammar] at h
  negated_error h := by simp [typeGrammar] at h

theorem number?_kind {kind : TokenKind} {text : String} {p : Position}
    {l : Except ParseError Scalar} (h : number? kind text p = some l) :
    kind = .integer ∨ kind = .float := by
  cases kind with
  | integer => exact .inl rfl
  | float => exact .inr rfl
  | _ => simp [number?] at h

theorem literalGrammar_plain : literalGrammar.Plain where
  leaf_kind h := by
    refine ⟨fun hk => ?_, fun hk => ?_⟩
    · simp [literalGrammar_leaf?_symbol hk] at h
    · simp [literalGrammar, scalar?, number?, hk] at h
  leaf_error h := by
    rw [scalar?_eq_error h]
    simp [ParseError.IsDuplicate]
  negated_kind h := number?_kind h
  negated_error h := by
    rw [number?_eq_error h]
    simp [ParseError.IsDuplicate]

end SchemaLang
