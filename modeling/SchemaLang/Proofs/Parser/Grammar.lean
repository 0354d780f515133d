import SchemaLang.Program.Basic
import SchemaLang.Text.Quoted

/-!
# The grammar of token lists

The productions say which tokens spell which piece of a program, with no word on
how they are read. Object types and object literals are spelled alike: `Value`,
`Braced`, `Items` and `Item` are relative to what spells a leaf. That names differ
within a scope and that objects are nested only so deep is left to the program.
-/
namespace SchemaLang.Grammar

variable {α β : Type}

/-- Pieces of one kind after each other, in any number. -/
inductive Many (piece : List Token → β → Prop) : List Token → List β → Prop where
  | nil : Many piece [] []
  | cons {ts us : List Token} {b : β} {bs : List β} :
      piece ts b → Many piece us bs → Many piece (ts ++ us) (b :: bs)

def Names (t : Token) (i : Ident) : Prop :=
  t.kind = .identifier ∧ i = ⟨t.lexeme, t.position⟩

/-- The comma that may stand behind the last of several items. -/
inductive Trailing : List Token → Prop where
  | absent : Trailing []
  | comma {c : Token} : c.isSymbol "," → Trailing [c]

mutual

inductive Value (leaf : List Token → α → Prop) : List Token → Tree Ident α → Prop where
  | leaf {ts : List Token} {a : α} : leaf ts a → Value leaf ts (.leaf a)
  | object {ts : List Token} {es : List (Ident × Tree Ident α)} :
      Braced leaf ts es → Value leaf ts (.object es)

/-- No items, or items with commas between, in braces. -/
inductive Braced (leaf : List Token → α → Prop) :
    List Token → List (Ident × Tree Ident α) → Prop where
  | empty {o c : Token} : o.isSymbol "\x7b" → c.isSymbol "\x7d" → Braced leaf [o, c] []
  | items {o c : Token} {ts tail : List Token} {es : List (Ident × Tree Ident α)} :
      o.isSymbol "\x7b" → Items leaf ts es → Trailing tail → c.isSymbol "\x7d" →
      Braced leaf (o :: (ts ++ tail ++ [c])) es

/-- One item at least. -/
inductive Items (leaf : List Token → α → Prop) :
    List Token → List (Ident × Tree Ident α) → Prop where
  | one {ts : List Token} {e : Ident × Tree Ident α} : Item leaf ts e → Items leaf ts [e]
  | more {ts us : List Token} {c : Token} {e : Ident × Tree Ident α}
      {es : List (Ident × Tree Ident α)} :
      Item leaf ts e → c.isSymbol "," → Items leaf us es → Items leaf (ts ++ c :: us) (e :: es)

/-- A field with its type, or a key with its value. -/
inductive Item (leaf : List Token → α → Prop) :
    List Token → Ident × Tree Ident α → Prop where
  | mk {n c : Token} {ts : List Token} {i : Ident} {v : Tree Ident α} :
      Names n i → c.isSymbol ":" → Value leaf ts v → Item leaf (n :: c :: ts) (i, v)

end

/-- A primitive type by its own name, any other type by reference. -/
inductive TypeText : List Token → TypeLeaf → Prop where
  | primitive {t : Token} {p : Primitive} :
      t.kind = .typeName → t.lexeme = p.name → TypeText [t] (.primitive p)
  | named {t : Token} {i : Ident} : Names t i → TypeText [t] (.named i)

/-- The text of a number. A minus sign is part of it when the number stands right behind,
in the same line and one column on. -/
inductive NumberText : List Token → TokenKind → String → Prop where
  | plain {t : Token} : NumberText [t] t.kind t.lexeme
  | negated {m t : Token} :
      m.isSymbol "-" → t.position = ⟨m.position.line, m.position.column + 1⟩ →
      NumberText [m, t] t.kind ("-" ++ t.lexeme)

/-- A literal that is no object. Numbers have to be in range. -/
inductive ScalarText : List Token → Scalar → Prop where
  | integer {ts : List Token} {text : String} {v : Int64} :
      NumberText ts .integer text → Numeral.int64? text = some v → ScalarText ts (.integer v)
  | float {ts : List Token} {text : String} {x : Numeral.Binary64} :
      NumberText ts .float text → Numeral.Binary64.ofText? text = some x → ScalarText ts (.float x)
  | string {t : Token} :
      t.kind = .string → ScalarText [t] (.string (t.stringValue?.getD ""))
  | boolean {t : Token} : t.kind = .boolean → ScalarText [t] (.boolean (t.lexeme = "true"))

/-- A literal forgets where its keys are. -/
inductive Declares : List Token → Declaration → Prop where
  | type {k n a : Token} {ts : List Token} {i : Ident} {fields : Fields} :
      k.isKeyword "type" → Names n i → a.isSymbol "=>" → Braced TypeText ts fields →
      Declares (k :: n :: a :: ts) (.type i fields)
  | binding {k n a : Token} {ts : List Token} {i : Ident} {kind : BindingKind}
      {v : Tree Ident Scalar} :
      k.isKeyword kind.keyword → Names n i → a.isSymbol "=" → Value ScalarText ts v →
      Declares (k :: n :: a :: ts) (.binding kind i (v.mapKeys (·.name)))

inductive IsModule : List Token → Module → Prop where
  | mk {k n o c : Token} {ts : List Token} {i : Ident} {ds : List Declaration} :
      k.isKeyword "module" → Names n i → o.isSymbol "\x7b" → Many Declares ts ds →
      c.isSymbol "\x7d" → IsModule (k :: n :: o :: (ts ++ [c])) ⟨i, ds⟩

/-- The tokens spell the program. -/
def Derives (ts : List Token) (p : Program) : Prop := Many IsModule ts p.modules

namespace Many

variable {piece : List Token → β → Prop}

theorem single {ts : List Token} {b : β} (h : piece ts b) : Many piece ts [b] := by
  simpa using Many.cons h .nil

theorem append {ts us : List Token} {bs cs : List β} (h : Many piece ts bs)
    (h' : Many piece us cs) : Many piece (ts ++ us) (bs ++ cs) := by
  induction h with
  | nil => simpa using h'
  | cons hb _ ih => simpa using Many.cons hb ih

theorem snoc {ts us : List Token} {bs : List β} {b : β} (h : Many piece ts bs)
    (hb : piece us b) : Many piece (ts ++ us) (bs ++ [b]) :=
  h.append (.single hb)

theorem imp {piece' : List Token → β → Prop} {ts : List Token} {bs : List β}
    (h : Many piece ts bs) (hp : ∀ ts b, piece ts b → piece' ts b) : Many piece' ts bs := by
  induction h with
  | nil => exact .nil
  | cons hb _ ih => exact .cons (hp _ _ hb) ih

theorem forall_mem {P : β → Prop} {ts : List Token} {bs : List β} (h : Many piece ts bs)
    (hp : ∀ ts b, piece ts b → P b) : ∀ b ∈ bs, P b := by
  induction h with
  | nil => simp
  | cons hb _ ih => exact List.forall_mem_cons.2 ⟨hp _ _ hb, ih⟩

end Many

/-- Items that all have a comma behind them. -/
def Listed (leaf : List Token → α → Prop) : List Token → List (Ident × Tree Ident α) → Prop :=
  Many fun ts e => ∃ us c, ts = us ++ [c] ∧ Item leaf us e ∧ c.isSymbol ","

namespace Listed

variable {leaf : List Token → α → Prop} {ts us : List Token}
  {e : Ident × Tree Ident α} {es : List (Ident × Tree Ident α)}

theorem snoc {c : Token} (h : Listed leaf ts es) (he : Item leaf us e) (hc : c.isSymbol ",") :
    Listed leaf (ts ++ us ++ [c]) (es ++ [e]) := by
  rw [List.append_assoc]
  exact Many.snoc h ⟨us, c, rfl, he, hc⟩

/-- One more item without a comma, and the list is as the grammar has it. -/
theorem items (h : Listed leaf ts es) (he : Item leaf us e) : Items leaf (ts ++ us) (es ++ [e]) := by
  induction h with
  | nil => simpa using Items.one he
  | cons hb _ ih =>
    obtain ⟨vs, c, rfl, hv, hc⟩ := hb
    simpa using Items.more hv hc ih

/-- The last comma of all is the trailing one. -/
theorem items_trailing (h : Listed leaf ts es) (hne : es ≠ []) :
    ∃ us c, ts = us ++ [c] ∧ Items leaf us es ∧ c.isSymbol "," := by
  induction h with
  | nil => exact absurd rfl hne
  | cons hb hrest ih =>
    obtain ⟨vs, c, rfl, hv, hc⟩ := hb
    cases hrest with
    | nil => exact ⟨vs, c, by simp, .one hv, hc⟩
    | cons hb' hrest' =>
      obtain ⟨us, c', he, hi, hc'⟩ := ih (by simp)
      exact ⟨vs ++ c :: us, c', by simp [he], .more hv hc hi, hc'⟩

end Listed

end SchemaLang.Grammar
