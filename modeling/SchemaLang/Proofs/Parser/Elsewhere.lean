import SchemaLang.Parser.Basic
import SchemaLang.Proofs.Location
import SchemaLang.Proofs.Program.Positions

/-!
# Parsing tokens that stand elsewhere

The machine compares positions at one point only, where a number has to touch its minus
sign. With the outcome of that comparison given (`stepGiven`), a step does the same to
tokens wherever they are put, and what it makes of them is put there too. So a run
commutes with every move that keeps neighbours.
-/
namespace SchemaLang

variable {α : Type} (f : Position → Position)

/-- The same error, elsewhere. -/
def ParseError.mapPositions : ParseError → ParseError
  | unexpectedToken expected found p => unexpectedToken expected found (f p)
  | unexpectedEnd expected p => unexpectedEnd expected (f p)
  | duplicateName name scope first second => duplicateName name scope (f first) (f second)
  | invalidLiteral lexeme p => invalidLiteral lexeme (f p)
  | nestingTooDeep limit p => nestingTooDeep limit (f p)
  | tokensAfterEnd found p => tokensAfterEnd found (f p)

/-- A verdict with the error elsewhere, the state and the result replaced. -/
def Verdict.mapPositions {σ ρ : Type} (next : σ → σ) (result : ρ → ρ) : Verdict σ ρ → Verdict σ ρ
  | shift s => shift (next s)
  | done r => done (result r)
  | fail e => fail (e.mapPositions f)
  | reject => reject

section Names

theorem firstRepeat_map (seen names : List Ident) :
    firstRepeat (seen.map (Ident.mapPositions f)) (names.map (Ident.mapPositions f)) =
      (firstRepeat seen names).map (Prod.map (Ident.mapPositions f) (Ident.mapPositions f)) := by
  induction names generalizing seen with
  | nil => rfl
  | cons i is ih =>
    rw [List.map_cons, firstRepeat, firstRepeat, List.find?_map]
    have hname : (fun j : Ident => decide (j.name = (i.mapPositions f).name)) ∘
        Ident.mapPositions f = fun j => decide (j.name = i.name) := rfl
    rw [hname]
    cases seen.find? fun j => decide (j.name = i.name) with
    | some j => rfl
    | none => exact ih (i :: seen)

/-- Which name is repeated does not depend on where the names are. -/
theorem duplicate?_map (scope : Scope) (names : List Ident) :
    duplicate? scope (names.map (Ident.mapPositions f)) =
      (duplicate? scope names).map (ParseError.mapPositions f) := by
  have h := firstRepeat_map f [] names
  rw [List.map_nil] at h
  rw [duplicate?, duplicate?, h]
  cases firstRepeat [] names <;> rfl

theorem Token.ident?_mapPositions (t : Token) :
    (t.mapPositions f).ident? = t.ident?.map (Ident.mapPositions f) := by
  by_cases ht : t.kind = .identifier
  · simp [ident?, ht, Ident.mapPositions]
  · simp [ident?, ht]

end Names

/-- The token stands right behind the minus sign that it has to touch, if there is one. -/
def Token.touches (t : Token) (minus : Option Position) : Bool :=
  minus.all fun m => t.position = m.next

section Leaves

/-- What the grammar makes of a token moves with the token. -/
structure LeafGrammar.Movable (g : LeafGrammar α) (leaf : α → α) : Prop where
  leaf? : ∀ t, g.leaf? (t.mapPositions f) =
    (g.leaf? t).map (mapBoth (ParseError.mapPositions f) leaf)
  negated? : ∀ m t, g.negated? (f m) (t.mapPositions f) =
    (g.negated? m t).map (mapBoth (ParseError.mapPositions f) leaf)

theorem number?_map (kind : TokenKind) (lexeme : String) (p : Position) :
    number? kind lexeme (f p) =
      (number? kind lexeme p).map (mapBoth (ParseError.mapPositions f) id) := by
  cases kind with
  | integer =>
    simp only [number?]
    cases Numeral.int64? lexeme <;> rfl
  | float =>
    simp only [number?]
    cases Numeral.Binary64.ofText? lexeme <;> rfl
  | _ => rfl

theorem typeGrammar_movable : typeGrammar.Movable f (TypeLeaf.mapPositions f) where
  leaf? t := by
    simp only [typeGrammar, typeLeaf?, Token.mapPositions_kind]
    split
    · simp only [Token.mapPositions_lexeme]
      cases Primitive.ofName? t.lexeme <;> rfl
    · rfl
    · rfl
  negated? _ _ := rfl

theorem literalGrammar_movable : literalGrammar.Movable f id where
  leaf? t := by
    simp only [literalGrammar, scalar?, Token.mapPositions_kind]
    split
    · rfl
    · rfl
    · exact number?_map f _ _ _
  negated? m t := number?_map f _ _ m

end Leaves

section Bodies

variable (leaf : α → α)

/-- The tree with its names and leaves elsewhere. -/
def moveTree : Tree Ident α → Tree Ident α := Tree.map (Ident.mapPositions f) leaf

def moveEntries (es : Entries α) : Entries α :=
  es.map (Prod.map (Ident.mapPositions f) (moveTree f leaf))

def Frame.mapPositions (frame : Frame α) : Frame α :=
  ⟨moveEntries f leaf frame.entries, frame.key.mapPositions f⟩

def Place.mapPositions : Place α → Place α
  | brace => brace
  | value => value
  | number minus => number (f minus)
  | entry es => entry (moveEntries f leaf es)
  | colon es key => colon (moveEntries f leaf es) (key.mapPositions f)
  | separator es => separator (moveEntries f leaf es)

/-- What a place asks for has nothing to do with positions. -/
theorem Place.expected_mapPositions (g : LeafGrammar α) (place : Place α) :
    (place.mapPositions f leaf).expected g = place.expected g := by
  cases place <;> rfl

/-- The minus sign that the next token has to touch. -/
def Place.minus? : Place α → Option Position
  | number minus => some minus
  | _ => none

theorem Place.minus?_mapPositions (place : Place α) :
    (place.mapPositions f leaf).minus? = place.minus?.map f := by
  cases place <;> rfl

namespace Body

def mapPositions (b : Body α) : Body α :=
  ⟨b.place.mapPositions f leaf, b.outer.map (Frame.mapPositions f leaf)⟩

/-- The step, once it is known whether the token touches the minus sign before it. -/
def stepGiven (g : LeafGrammar α) (limit : Option Nat) (touching : Bool) (b : Body α)
    (t : Token) : Verdict (Body α) (Tree Ident α) :=
  match b.place with
  | .number minus =>
    if touching then
      match g.negated? minus t with
      | some leaf => completeLeaf leaf b.outer
      | none => .reject
    else .reject
  | _ => b.step g limit t

theorem step_eq_stepGiven (g : LeafGrammar α) (limit : Option Nat) (b : Body α) (t : Token) :
    b.step g limit t = b.stepGiven g limit (t.touches b.place.minus?) t := by
  obtain ⟨place, outer⟩ := b
  cases place with
  | number minus =>
    by_cases ht : t.position = minus.next
    · cases hg : g.negated? minus t <;> simp [step, stepGiven, Token.touches, Place.minus?, ht, hg]
    · simp [step, stepGiven, Token.touches, Place.minus?, ht]
  | _ => rfl

/-- The verdict on a body, elsewhere. -/
def moveVerdict : Verdict (Body α) (Tree Ident α) → Verdict (Body α) (Tree Ident α) :=
  Verdict.mapPositions f (mapPositions f leaf) (moveTree f leaf)

theorem complete_map (tree : Tree Ident α) (outer : List (Frame α)) :
    complete (moveTree f leaf tree) (outer.map (Frame.mapPositions f leaf)) =
      moveVerdict f leaf (complete tree outer) := by
  cases outer <;> rfl

theorem completeLeaf_map (result : Except ParseError α) (outer : List (Frame α)) :
    completeLeaf (mapBoth (ParseError.mapPositions f) leaf result)
        (outer.map (Frame.mapPositions f leaf)) =
      moveVerdict f leaf (completeLeaf result outer) := by
  cases result with
  | error e => rfl
  | ok a => exact complete_map f leaf (.leaf a) outer

theorem openObject_map (limit : Option Nat) (p : Position) (outer : List (Frame α)) :
    openObject limit (f p) (outer.map (Frame.mapPositions f leaf)) =
      moveVerdict f leaf (openObject limit p outer) := by
  simp only [openObject, List.length_map]
  cases limit.filter (· ≤ outer.length) <;> rfl

theorem closeObject_map (g : LeafGrammar α) (es : Entries α) (outer : List (Frame α)) :
    closeObject g (moveEntries f leaf es) (outer.map (Frame.mapPositions f leaf)) =
      moveVerdict f leaf (closeObject g es outer) := by
  have hnames : (moveEntries f leaf es).reverse.map (·.1) =
      (es.reverse.map (·.1)).map (Ident.mapPositions f) := by
    simp [moveEntries, Function.comp_def]
  have htree : Tree.object (moveEntries f leaf es).reverse =
      moveTree f leaf (.object es.reverse) := by
    rw [moveTree, Tree.map_object, moveEntries, List.map_reverse]
    rfl
  simp only [closeObject, hnames, duplicate?_map, htree]
  cases duplicate? g.scope (es.reverse.map (·.1)) with
  | some e => rfl
  | none => exact complete_map f leaf _ outer

/-- A step does to tokens elsewhere what it does to them here. -/
theorem stepGiven_mapPositions {g : LeafGrammar α} (hg : g.Movable f leaf) (limit : Option Nat)
    (touching : Bool) (b : Body α) (t : Token) :
    (b.mapPositions f leaf).stepGiven g limit touching (t.mapPositions f) =
      moveVerdict f leaf (b.stepGiven g limit touching t) := by
  obtain ⟨place, outer⟩ := b
  cases place with
  | brace =>
    simp only [stepGiven, mapPositions, Place.mapPositions, step, Token.isSymbol_mapPositions,
      Token.mapPositions_position, openObject_map, apply_ite (moveVerdict f leaf)]
    rfl
  | value =>
    simp only [stepGiven, mapPositions, Place.mapPositions, step, Token.isSymbol_mapPositions,
      Token.mapPositions_position, openObject_map, hg.leaf?, apply_ite (moveVerdict f leaf)]
    cases g.leaf? t with
    | none => rfl
    | some result => simp only [Option.map_some, completeLeaf_map]; rfl
  | number minus =>
    simp only [stepGiven, mapPositions, Place.mapPositions, hg.negated?,
      apply_ite (moveVerdict f leaf)]
    cases g.negated? minus t with
    | none => rfl
    | some result => simp only [Option.map_some, completeLeaf_map]; rfl
  | entry es =>
    simp only [stepGiven, mapPositions, Place.mapPositions, step, Token.isSymbol_mapPositions,
      closeObject_map, Token.ident?_mapPositions, apply_ite (moveVerdict f leaf)]
    cases t.ident? <;> rfl
  | colon es key =>
    simp only [stepGiven, mapPositions, Place.mapPositions, step, Token.isSymbol_mapPositions,
      apply_ite (moveVerdict f leaf)]
    rfl
  | separator es =>
    simp only [stepGiven, mapPositions, Place.mapPositions, step, Token.isSymbol_mapPositions,
      closeObject_map, apply_ite (moveVerdict f leaf)]
    rfl

end Body

end Bodies

section States

def OpenModule.mapPositions (m : OpenModule) : OpenModule :=
  ⟨m.name.mapPositions f, m.declarations.map (Declaration.mapPositions f)⟩

theorem OpenModule.close_mapPositions (m : OpenModule) :
    (m.mapPositions f).close =
      mapBoth (ParseError.mapPositions f) (Module.mapPositions f) m.close := by
  have hnames : ((m.mapPositions f).declarations.reverse.map (·.name)) =
      (m.declarations.reverse.map (·.name)).map (Ident.mapPositions f) := by
    simp [mapPositions, Function.comp_def]
  simp only [close, hnames, duplicate?_map]
  cases duplicate? .declaration (m.declarations.reverse.map (·.name)) with
  | some e => rfl
  | none => simp [mapPositions, Module.mapPositions]

/-- A keyword announces the same wherever it stands. -/
theorem Form.ofToken?_mapPositions (t : Token) :
    Form.ofToken? (t.mapPositions f) = Form.ofToken? t := rfl

namespace State

def mapPositions : State → State
  | between => between
  | moduleName => moduleName
  | moduleBrace name => moduleBrace (name.mapPositions f)
  | declarations m => declarations (m.mapPositions f)
  | declarationName m form => declarationName (m.mapPositions f) form
  | sign m form name => sign (m.mapPositions f) form (name.mapPositions f)
  | fields m name body =>
    fields (m.mapPositions f) (name.mapPositions f) (body.mapPositions f (TypeLeaf.mapPositions f))
  | value m kind name body =>
    value (m.mapPositions f) kind (name.mapPositions f) (body.mapPositions f id)

theorem expected_mapPositions (s : State) : (s.mapPositions f).expected = s.expected := by
  cases s with
  | fields => exact Place.expected_mapPositions f _ _ _
  | value => exact Place.expected_mapPositions f _ _ _
  | _ => rfl

theorem bodyOf_mapPositions (m : OpenModule) (form : Form) (name : Ident) :
    (bodyOf m form name).mapPositions f =
      bodyOf (m.mapPositions f) form (name.mapPositions f) := by
  cases form <;> rfl

/-- The minus sign that the next token has to touch. -/
def minus? : State → Option Position
  | fields _ _ body => body.place.minus?
  | value _ _ _ body => body.place.minus?
  | _ => none

theorem minus?_mapPositions (s : State) : (s.mapPositions f).minus? = s.minus?.map f := by
  cases s with
  | fields => exact Place.minus?_mapPositions f _ _
  | value => exact Place.minus?_mapPositions f _ _
  | _ => rfl

/-- The step, once it is known whether the token touches the minus sign before it. -/
def stepGiven (limit : Option Nat) (touching : Bool) (s : State) (t : Token) :
    Verdict State Module :=
  match s with
  | fields m name body =>
    ofBody m (fields m name) (fun tree => .type name tree.entries)
      (body.stepGiven typeGrammar limit touching t)
  | value m kind name body =>
    ofBody m (value m kind name) (fun tree => .binding kind name (tree.mapKeys (·.name)))
      (body.stepGiven literalGrammar limit touching t)
  | s => s.step limit t

theorem step_eq_stepGiven (limit : Option Nat) (s : State) (t : Token) :
    s.step limit t = s.stepGiven limit (t.touches s.minus?) t := by
  cases s with
  | fields m name body =>
    simp only [step, stepGiven, minus?]
    rw [Body.step_eq_stepGiven]
  | value m kind name body =>
    simp only [step, stepGiven, minus?]
    rw [Body.step_eq_stepGiven]
  | _ => rfl

/-- The verdict on a state, elsewhere. -/
def moveVerdict : Verdict State Module → Verdict State Module :=
  Verdict.mapPositions f (mapPositions f) (Module.mapPositions f)

theorem ofBody_map {leaf : α → α} {m : OpenModule} {resume resume' : Body α → State}
    {declare declare' : Tree Ident α → Declaration}
    (hr : ∀ b, resume' (b.mapPositions f leaf) = (resume b).mapPositions f)
    (hd : ∀ tree, declare' (moveTree f leaf tree) = (declare tree).mapPositions f)
    (v : Verdict (Body α) (Tree Ident α)) :
    ofBody (m.mapPositions f) resume' declare' (Body.moveVerdict f leaf v) =
      moveVerdict f (ofBody m resume declare v) := by
  cases v with
  | shift b => exact congrArg Verdict.shift (hr b)
  | done tree =>
    refine congrArg (fun d => Verdict.shift (declarations ((m.mapPositions f).add d))) (hd tree)
  | fail e => rfl
  | reject => rfl

/-- The entries of a tree move with the tree. -/
theorem entries_moveTree (tree : Tree Ident TypeLeaf) :
    (moveTree f (TypeLeaf.mapPositions f) tree).entries = Fields.mapPositions f tree.entries := by
  cases tree with
  | leaf a => rfl
  | object es => rw [moveTree, Tree.map_object]; rfl

/-- The keys of a literal have lost their places. -/
theorem mapKeys_moveTree (tree : Tree Ident Scalar) :
    (moveTree f id tree).mapKeys (·.name) = tree.mapKeys (·.name) := by
  simp only [Tree.mapKeys_eq_map, moveTree, Tree.map_map]
  rfl

theorem stepGiven_mapPositions (limit : Option Nat) (touching : Bool) (s : State) (t : Token) :
    (s.mapPositions f).stepGiven limit touching (t.mapPositions f) =
      moveVerdict f (s.stepGiven limit touching t) := by
  cases s with
  | between =>
    simp only [stepGiven, mapPositions, step, Token.isKeyword_mapPositions,
      apply_ite (moveVerdict f)]
    rfl
  | moduleName =>
    simp only [stepGiven, mapPositions, step, Token.ident?_mapPositions]
    cases t.ident? <;> rfl
  | moduleBrace name =>
    simp only [stepGiven, mapPositions, step, Token.isSymbol_mapPositions,
      apply_ite (moveVerdict f)]
    rfl
  | declarations m =>
    simp only [stepGiven, mapPositions, step, Token.isSymbol_mapPositions,
      OpenModule.close_mapPositions, Form.ofToken?_mapPositions, apply_ite (moveVerdict f)]
    cases m.close <;> cases Form.ofToken? t <;> rfl
  | declarationName m form =>
    simp only [stepGiven, mapPositions, step, Token.ident?_mapPositions]
    cases t.ident? <;> rfl
  | sign m form name =>
    simp only [stepGiven, mapPositions, step, Token.isSymbol_mapPositions,
      apply_ite (moveVerdict f), ← bodyOf_mapPositions]
    rfl
  | fields m name body =>
    simp only [stepGiven, mapPositions]
    rw [Body.stepGiven_mapPositions f _ (typeGrammar_movable f)]
    refine ofBody_map f (fun _ => rfl) (fun tree => ?_) _
    rw [entries_moveTree]
    rfl
  | value m kind name body =>
    simp only [stepGiven, mapPositions]
    rw [Body.stepGiven_mapPositions f _ (literalGrammar_movable f)]
    refine ofBody_map f (fun _ => rfl) (fun tree => ?_) _
    rw [mapKeys_moveTree]
    rfl

end State

/-- A move that keeps the places right behind each other so, and no others. -/
def KeepsNext : Prop := ∀ p m : Position, f p = (f m).next ↔ p = m.next

variable {f}

theorem Token.touches_mapPositions (hf : KeepsNext f) (t : Token) (minus : Option Position) :
    (t.mapPositions f).touches (minus.map f) = t.touches minus := by
  cases minus with
  | none => rfl
  | some m => exact decide_eq_decide.2 (hf t.position m)

theorem State.step_mapPositions (hf : KeepsNext f) (limit : Option Nat) (s : State) (t : Token) :
    (s.mapPositions f).step limit (t.mapPositions f) = moveVerdict f (s.step limit t) := by
  rw [step_eq_stepGiven, step_eq_stepGiven, minus?_mapPositions, Token.touches_mapPositions hf,
    stepGiven_mapPositions]

theorem State.atEnd_mapPositions (s : State) (p : Position) :
    (s.mapPositions f).atEnd (f p) = (s.atEnd p).map (ParseError.mapPositions f) := by
  cases s with
  | between => rfl
  | _ =>
    exact congrArg (fun x => some (ParseError.unexpectedEnd x (f p))) (expected_mapPositions f _)

variable (f) in
/-- The same reading of tokens elsewhere. -/
def Reading.mapPositions (r : Reading) : Reading where
  modules := r.modules.map (Module.mapPositions f)
  failure := r.failure.map (ParseError.mapPositions f)
  unread := r.unread.map (Token.mapPositions f)

theorem Reading.result_mapPositions (r : Reading) :
    (r.mapPositions f).result =
      mapBoth (ParseError.mapPositions f) (Program.mapPositions f) r.result := by
  obtain ⟨modules, failure, unread⟩ := r
  cases failure <;> rfl

/-- A run over tokens elsewhere is the run over the tokens here, put there. -/
theorem State.run_mapPositions (hf : KeepsNext f) (limit : Option Nat) (endPosition : Position)
    (s : State) (ts : List Token) :
    (s.mapPositions f).run limit (f endPosition) (ts.map (Token.mapPositions f)) =
      (s.run limit endPosition ts).mapPositions f := by
  induction ts generalizing s with
  | nil => simp only [List.map_nil, run, atEnd_mapPositions, Reading.mapPositions]
  | cons t ts ih =>
    simp only [List.map_cons, run, step_mapPositions hf]
    cases s.step limit t with
    | shift u => exact ih u
    | done m =>
      have hrest : between.run limit (f endPosition) (ts.map (Token.mapPositions f)) =
          (between.run limit endPosition ts).mapPositions f := ih between
      simp only [moveVerdict, Verdict.mapPositions, hrest]
      rfl
    | fail e => rfl
    | reject =>
      simp only [moveVerdict, Verdict.mapPositions, expected_mapPositions]
      rfl

end States

end SchemaLang
