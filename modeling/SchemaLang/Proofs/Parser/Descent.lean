import SchemaLang.Parser.Basic

/-!
# Parsing by recursive descent

The same grammar read with one procedure for each production, over a list that is
indexed and a depth that is counted by hand. Nothing here is safe by construction: an
index outside of the list, a depth below zero or a recursion that goes deeper than the
number given for it leave a procedure without an answer (`none`). An error is an answer,
and the cursor stays where the error came up.
-/
namespace SchemaLang

/-- Where a descent is. The list contains its end, `depth` objects are open, and never more
than `deepest` have been so far. -/
structure Cursor where
  tokens : List Token
  index : Nat
  depth : Nat
  deepest : Nat

/-- The leaf that a token is right behind a minus sign at the given place. -/
def LeafGrammar.adjacent? {α : Type} (g : LeafGrammar α) (minus : Position) (t : Token) :
    Option (Except ParseError α) :=
  if t.position = minus.next then g.negated? minus t else none

/-- A procedure that answers with a result or an error and leaves a cursor, if it returns. -/
abbrev Descent (β : Type) := ExceptT ParseError (StateT Cursor Option) β

namespace Cursor

/-- In front of a list, which is given an end of the input if it has none. -/
def ofTokens (ts : List Token) : Except ParseError Cursor :=
  match ts.dropWhile (·.kind ≠ .endOfInput) with
  | [] => .ok ⟨ts ++ [⟨.endOfInput, "", Parser.impliedEnd ts⟩], 0, 0, 0⟩
  | [_] => .ok ⟨ts, 0, 0, 0⟩
  | _ :: extra :: _ => .error (.tokensAfterEnd extra.lexeme extra.position)

def next (c : Cursor) : Cursor := { c with index := c.index + 1 }

def enter (c : Cursor) : Cursor :=
  { c with depth := c.depth + 1, deepest := max c.deepest (c.depth + 1) }

/-- The depth cannot go below zero. -/
def leave? (c : Cursor) : Option Cursor :=
  if c.depth = 0 then none else some { c with depth := c.depth - 1 }

end Cursor

namespace Descent

variable {α β : Type}

/-- The token at the index, which has to be one of the list. -/
def peek : Descent Token := fun c => c.tokens[c.index]?.map fun t => (.ok t, c)

/-- Takes a token, but never the end of the input. -/
def advance : Descent Token := do
  let t ← peek
  if t.kind ≠ .endOfInput then modify Cursor.next
  return t

def unexpected (x : Expected) : Descent β := do
  let t ← peek
  if t.kind = .endOfInput then throw (.unexpectedEnd x t.position)
  else throw (.unexpectedToken x t.lexeme t.position)

/-- Takes a token that is accepted; any other token is none of those expected. -/
def expect (accept : Token → Option β) (x : Expected) : Descent β := do
  match accept (← peek) with
  | some b =>
    let _ ← advance
    return b
  | none => unexpected x

def expectSymbol (symbol : String) (x : Expected) : Descent Token :=
  expect (fun t => if t.isSymbol symbol then some t else none) x

def expectKeyword (word : String) (x : Expected) : Descent Token :=
  expect (fun t => if t.isKeyword word then some t else none) x

def expectIdent : Descent Ident := expect Token.ident? .identifier

/-- Takes the symbol if it comes next. -/
def eatSymbol (symbol : String) : Descent Bool := do
  if (← peek).isSymbol symbol then
    let _ ← advance
    return true
  else return false

def ofExcept : Except ParseError β → Descent β
  | .ok b => return b
  | .error e => throw e

/-- Goes on only if the names all differ. -/
def ensureUnique (scope : Scope) (names : List Ident) : Descent Unit :=
  match duplicate? scope names with
  | some e => throw e
  | none => return ()

/-- The brace behind the last of some entries, which are given with the latest first. -/
def closeItems (es : Entries α) : Descent (List (Ident × Tree Ident α)) := do
  let _ ← expectSymbol "\x7d" .separator
  return es.reverse

/-- A recursion that may go no deeper. -/
def exhausted : Descent β := fun _ => none

def item (value : Descent (Tree Ident α)) : Descent (Ident × Tree Ident α) := do
  let key ← expectIdent
  let _ ← expectSymbol ":" .colon
  return (key, ← value)

/-- Items with commas between, up to the brace behind them. -/
def items (value : Descent (Tree Ident α)) :
    Nat → Entries α → Descent (List (Ident × Tree Ident α))
  | 0, _ => exhausted
  | n + 1, es => do
    if (← peek).isSymbol "\x7d" then closeItems es
    else
      let e ← item value
      if ← eatSymbol "," then items value n (e :: es) else closeItems (e :: es)

/-- One level deeper. Whatever comes of the procedure, the depth goes down again behind it. -/
def enclosed (m : Descent β) : Descent β :=
  show StateT Cursor Option (Except ParseError β) from do
    modify Cursor.enter
    let answer ← m.run
    set (← (← get).leave?)
    return answer

/-- Items in braces, if there may be one more object within those that are open. -/
def braced (value : Descent (Tree Ident α)) (n : Nat) :
    Descent (List (Ident × Tree Ident α)) := do
  let brace ← expectSymbol "\x7b" .openBrace
  if maxNesting ≤ (← get).depth then throw (.nestingTooDeep maxNesting brace.position)
  else enclosed (items value n [])

/-- The entries of an object, and none of their names twice. -/
def object (g : LeafGrammar α) (value : Descent (Tree Ident α)) (n : Nat) :
    Descent (List (Ident × Tree Ident α)) := do
  let es ← braced value n
  ensureUnique g.scope (es.map (·.1))
  return es

/-- A type, or a literal. -/
def value (g : LeafGrammar α) : Nat → Descent (Tree Ident α)
  | 0 => exhausted
  | n + 1 => do
    let t ← peek
    if t.isSymbol "\x7b" then return .object (← object g (value g n) n)
    else if g.signed && t.isSymbol "-" then
      let _ ← advance
      let leaf ← expect (g.adjacent? t.position) .adjacentNumber
      return .leaf (← ofExcept leaf)
    else
      let leaf ← expect g.leaf? g.expected
      return .leaf (← ofExcept leaf)

def declaration (n : Nat) : Descent Declaration := do
  match Form.ofToken? (← peek) with
  | none => unexpected .declaration
  | some form =>
    let _ ← advance
    let name ← expectIdent
    let _ ← expectSymbol form.sign form.expected
    match form with
    | .type => return .type name (← object typeGrammar (value typeGrammar n) n)
    | .binding kind =>
      return .binding kind name ((← value literalGrammar n).mapKeys (·.name))

/-- Declarations up to the brace behind them; those before are given with the latest first. -/
def declarations : Nat → List Declaration → Descent (List Declaration)
  | 0, _ => exhausted
  | n + 1, ds => do
    if (← peek).isSymbol "\x7d" then
      let _ ← advance
      return ds.reverse
    else declarations n ((← declaration n) :: ds)

def singleModule (n : Nat) : Descent Module := do
  let _ ← expectKeyword "module" .moduleKeyword
  let name ← expectIdent
  let _ ← expectSymbol "\x7b" .openBrace
  let ds ← declarations n []
  ensureUnique .declaration (ds.map (·.name))
  return ⟨name, ds⟩

/-- Modules up to the end of the input; those before are given with the latest first. -/
def modules : Nat → List Module → Descent (List Module)
  | 0, _ => exhausted
  | n + 1, ms => do
    if (← peek).kind = .endOfInput then return ms.reverse
    else modules n ((← singleModule n) :: ms)

def program (n : Nat) : Descent Program := do return ⟨← modules n []⟩

end Descent

/-- One call of the parser, with procedures that call each other `n` deep at most: its answer
and the cursor that it leaves, if it returns. -/
def Cursor.parseProgram (c : Cursor) (n : Nat) : Option (Except ParseError Program × Cursor) :=
  Descent.program n c

namespace Descent

variable {α β γ : Type} {c c' : Cursor} {m m' : Descent β} {f f' : β → Descent γ}

theorem bind_ok {b : β} (h : m c = some (.ok b, c')) : (m >>= f) c = f b c' := by
  simp only [bind, ExceptT.bind, ExceptT.mk, StateT.bind, h, ExceptT.bindCont, Option.bind_some]

theorem bind_error {e : ParseError} (h : m c = some (.error e, c')) :
    (m >>= f) c = some (.error e, c') := by
  simp only [bind, ExceptT.bind, ExceptT.mk, StateT.bind, h, ExceptT.bindCont, Option.bind_some]
  rfl

theorem bind_none (h : m c = none) : (m >>= f) c = none := by
  simp only [bind, ExceptT.bind, ExceptT.mk, StateT.bind, h, Option.bind_none]

theorem enclosed_apply (m : Descent β) (c : Cursor) :
    enclosed m c = (m c.enter).bind fun r => r.2.leave?.map fun c' => (r.1, c') := by
  have hrun : (StateT.run (ExceptT.run m) c.enter : Option _) = m c.enter := rfl
  change StateT.run _ c = _
  cases hr : m c.enter with
  | none => simp [hrun, hr]
  | some r => cases hl : r.2.leave? <;> simp [hrun, hr, hl]

/-- Where the first procedure returns, the second does the same. -/
def Extends (m m' : Descent β) : Prop := ∀ c r, m c = some r → m' c = some r

namespace Extends

theorem refl (m : Descent β) : Extends m m := fun _ _ h => h

theorem exhausted (m : Descent β) : Extends exhausted m := fun _ _ h => nomatch h

theorem bind (hm : Extends m m') (hf : ∀ b, Extends (f b) (f' b)) :
    Extends (m >>= f) (m' >>= f') := by
  intro c r h
  cases hr : m c with
  | none => simp [bind_none hr] at h
  | some r' =>
    obtain ⟨b | e, c'⟩ := r'
    · rw [bind_error hr] at h
      exact (bind_error (hm c _ hr)).trans h
    · rw [bind_ok hr] at h
      exact (bind_ok (hm c _ hr)).trans (hf _ c' r h)

theorem enclosed (hm : Extends m m') : Extends (enclosed m) (Descent.enclosed m') := by
  intro c r h
  rw [enclosed_apply] at h ⊢
  obtain ⟨r', hr, hleave⟩ := Option.bind_eq_some_iff.1 h
  rw [hm _ r' hr]
  exact hleave

end Extends

section Deeper

variable {g : LeafGrammar α} {v v' : Descent (Tree Ident α)}

theorem item_extends (hv : Extends v v') : Extends (item v) (item v') :=
  .bind (.refl _) fun _ => .bind (.refl _) fun _ => .bind hv fun _ => .refl _

theorem items_extends (hv : Extends v v') (n : Nat) (es : Entries α) :
    Extends (items v n es) (items v' (n + 1) es) := by
  induction n generalizing es with
  | zero => exact .exhausted _
  | succ n ih =>
    refine .bind (.refl _) fun t => ?_
    split
    · exact .refl _
    · refine .bind (item_extends hv) fun e => .bind (.refl _) fun comma => ?_
      split
      · exact ih (e :: es)
      · exact .refl _

theorem braced_extends (hv : Extends v v') (n : Nat) :
    Extends (braced v n) (braced v' (n + 1)) := by
  refine .bind (.refl _) fun brace => .bind (.refl _) fun c => ?_
  split
  · exact .refl _
  · exact .enclosed (items_extends hv n [])

theorem object_extends (hv : Extends v v') (n : Nat) :
    Extends (object g v n) (object g v' (n + 1)) :=
  .bind (braced_extends hv n) fun _ => .refl _

theorem value_extends (n : Nat) : Extends (value g n) (value g (n + 1)) := by
  induction n with
  | zero => exact .exhausted _
  | succ n ih =>
    refine .bind (.refl _) fun t => ?_
    split
    · exact .bind (object_extends ih n) fun _ => .refl _
    · exact .refl _

theorem declaration_extends (n : Nat) : Extends (declaration n) (declaration (n + 1)) := by
  refine .bind (.refl _) fun t => ?_
  cases Form.ofToken? t with
  | none => exact .refl _
  | some form =>
    refine .bind (.refl _) fun _ => .bind (.refl _) fun i => .bind (.refl _) fun _ => ?_
    cases form with
    | type => exact .bind (object_extends (value_extends n) n) fun _ => .refl _
    | binding kind => exact .bind (value_extends n) fun _ => .refl _

theorem declarations_extends (n : Nat) (ds : List Declaration) :
    Extends (declarations n ds) (declarations (n + 1) ds) := by
  induction n generalizing ds with
  | zero => exact .exhausted _
  | succ n ih =>
    refine .bind (.refl _) fun t => ?_
    split
    · exact .refl _
    · exact .bind (declaration_extends n) fun d => ih (d :: ds)

theorem singleModule_extends (n : Nat) : Extends (singleModule n) (singleModule (n + 1)) :=
  .bind (.refl _) fun _ => .bind (.refl _) fun _ => .bind (.refl _) fun _ =>
    .bind (declarations_extends n []) fun _ => .refl _

theorem modules_extends (n : Nat) (ms : List Module) :
    Extends (modules n ms) (modules (n + 1) ms) := by
  induction n generalizing ms with
  | zero => exact .exhausted _
  | succ n ih =>
    refine .bind (.refl _) fun t => ?_
    split
    · exact .refl _
    · exact .bind (singleModule_extends n) fun m => ih (m :: ms)

end Deeper

end Descent

/-- A call that returns does the same if its procedures may call each other deeper. -/
theorem Cursor.parseProgram_of_le {c : Cursor} {r : Except ParseError Program × Cursor}
    {n n' : Nat} (h : c.parseProgram n = some r) (hn : n ≤ n') : c.parseProgram n' = some r := by
  induction hn with
  | refl => exact h
  | step _ ih =>
    exact Descent.Extends.bind (Descent.modules_extends _ []) (fun _ => .refl _) c r ih

end SchemaLang
