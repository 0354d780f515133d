import Mathlib.Data.List.Nodup
import SchemaLang.Parser.Body

/-!
# The blocks of a token list

Which names share a scope is seen from braces, without parsing: a name stands behind
an opening brace, a comma or the keyword of a declaration, and belongs to the innermost
block that is open. `blocksOf` lists the blocks of any token list as they close, and
`Block.Reports` says which error is about the names of a block.
-/
namespace SchemaLang

/-- A pair of braces with the names right in it, in their order. -/
structure Block where
  scope : Scope
  names : List Ident

namespace Block

def add (is : List Ident) (b : Block) : Block := { b with names := b.names ++ is }

/-- No name stands in the block twice. -/
def Distinct (b : Block) : Prop := (b.names.map (·.name)).Nodup

instance (b : Block) : Decidable b.Distinct :=
  inferInstanceAs (Decidable (b.names.map (·.name)).Nodup)

/-- The error is about the earliest name of the block that stood before in it, and about the
one place where it did. -/
def Reports (b : Block) (e : ParseError) : Prop :=
  ∃ before first between second after,
    b.names = before ++ first :: between ++ second :: after ∧
    ((before ++ first :: between).map (·.name)).Nodup ∧ first.name = second.name ∧
    e = .duplicateName second.name b.scope first.position second.position

end Block

/-- What matters of the tokens so far: the last one, and the open blocks, innermost first. -/
structure Outline where
  previous : Option Token
  blocks : List Block

/-- Behind the token an identifier is a name of the block around it. -/
def Token.introduces (q : Token) : Bool :=
  q.isSymbol "\x7b" || q.isSymbol "," || ["type", "const", "let"].any q.isKeyword

namespace Outline

/-- In front of all tokens. -/
def start : Outline := ⟨none, []⟩

def isBehind (o : Outline) (symbol : String) : Bool := o.previous.any (·.isSymbol symbol)

/-- What a brace would open here. An outermost block holds declarations, and a block that is
right in an object type or an object literal is one itself. -/
def inside (o : Outline) : Scope :=
  if o.isBehind "=>" then .field
  else if o.isBehind "=" then .key
  else (o.blocks.head?.map (·.scope)).getD .declaration

/-- An identifier is a name of the innermost block here. -/
def isIntroduced (o : Outline) : Bool := o.previous.any (·.introduces)

/-- The token itself if it is a name of the innermost block. -/
def names (o : Outline) (t : Token) : List Ident :=
  if o.isIntroduced then t.ident?.toList else []

def next (o : Outline) (t : Token) : Outline where
  previous := some t
  blocks :=
    if t.isSymbol "\x7b" then ⟨o.inside, []⟩ :: o.blocks
    else if t.isSymbol "\x7d" then o.blocks.tail
    else o.blocks.modifyHead (·.add (o.names t))

/-- The block that the token closes. -/
def closes (o : Outline) (t : Token) : Option Block :=
  if t.isSymbol "\x7d" then o.blocks.head? else none

def after (o : Outline) (ts : List Token) : Outline := ts.foldl next o

/-- The blocks that the tokens close, the first to be closed in front. -/
def closed (o : Outline) : List Token → List Block
  | [] => []
  | t :: ts => (o.closes t).toList ++ (o.next t).closed ts

@[simp] theorem after_nil (o : Outline) : o.after [] = o := rfl

@[simp] theorem after_cons (o : Outline) (t : Token) (ts : List Token) :
    o.after (t :: ts) = (o.next t).after ts := rfl

theorem after_append (o : Outline) (ts us : List Token) :
    o.after (ts ++ us) = (o.after ts).after us := List.foldl_append

theorem closed_append (o : Outline) (ts us : List Token) :
    o.closed (ts ++ us) = o.closed ts ++ (o.after ts).closed us := by
  induction ts generalizing o with
  | nil => rfl
  | cons t ts ih => rw [List.cons_append, closed, ih, closed, List.append_assoc, after_cons]

end Outline

/-- The blocks of a token list in the order of their closing braces. -/
def blocksOf (ts : List Token) : List Block := Outline.start.closed ts

/-- The error is the report on a block, and no block that closes earlier repeats a name. -/
def ReportsFirst (ts : List Token) (e : ParseError) : Prop :=
  ∃ earlier b later, blocksOf ts = earlier ++ b :: later ∧
    (∀ b' ∈ earlier, b'.Distinct) ∧ b.Reports e

section Names

theorem exists_of_firstRepeat {seen is : List Ident} {first second : Ident}
    (h : firstRepeat seen is = some (first, second)) (hseen : (seen.map (·.name)).Nodup) :
    ∃ read rest, is = read ++ second :: rest ∧ first ∈ seen.reverse ++ read ∧
      first.name = second.name ∧ ((seen.reverse ++ read).map (·.name)).Nodup := by
  induction is generalizing seen with
  | nil => simp [firstRepeat] at h
  | cons i is ih =>
    rw [firstRepeat] at h
    cases hf : seen.find? (·.name = i.name) with
    | some j =>
      obtain ⟨rfl, rfl⟩ : j = first ∧ i = second := by simpa [hf] using h
      have hname : j.name = i.name := by simpa using List.find?_some hf
      refine ⟨[], is, rfl, ?_, hname, ?_⟩
      · simpa using List.mem_of_find?_eq_some hf
      · simpa [List.map_reverse, List.nodup_reverse] using hseen
    | none =>
      simp only [hf] at h
      have hnot : ∀ j ∈ seen, j.name ≠ i.name := by simpa using hf
      have hseen' : ((i :: seen).map (·.name)).Nodup := by
        rw [List.map_cons, List.nodup_cons]
        refine ⟨?_, hseen⟩
        intro hm
        obtain ⟨j, hj, hname⟩ := List.mem_map.1 hm
        exact hnot j hj hname
      obtain ⟨read, rest, rfl, hfirst, hname, hnodup⟩ := ih h hseen'
      refine ⟨i :: read, rest, rfl, ?_, hname, ?_⟩
      · simpa using hfirst
      · simpa using hnodup

/-- What the check at a closing brace finds is the report on the block. -/
theorem Block.reports_of_duplicate? {scope : Scope} {is : List Ident} {e : ParseError}
    (h : duplicate? scope is = some e) : Block.Reports ⟨scope, is⟩ e := by
  obtain ⟨⟨first, second⟩, hrepeat, rfl⟩ := Option.map_eq_some_iff.1 h
  obtain ⟨read, rest, rfl, hfirst, hname, hnodup⟩ := exists_of_firstRepeat hrepeat (by simp)
  obtain ⟨before, between, rfl⟩ := List.append_of_mem hfirst
  exact ⟨before, first, between, second, rest, rfl, hnodup, hname, rfl⟩

end Names

section Order

/-- The places of names in open blocks increase and are in front of all tokens to come. -/
def Outline.InFront (o : Outline) (ts : List Token) : Prop :=
  ∀ b ∈ o.blocks, (b.names.Pairwise fun i j => i.position < j.position) ∧
    ∀ i ∈ b.names, ∀ t ∈ ts, i.position < t.position

variable {o : Outline} {t : Token} {ts : List Token}

theorem Outline.position_of_mem_names {i : Ident} (h : i ∈ o.names t) :
    i.position = t.position := by
  unfold names at h
  split at h
  · unfold Token.ident? at h
    split at h
    · obtain rfl : i = ⟨t.lexeme, t.position⟩ := by simpa using h
      rfl
    · simp at h
  · simp at h

theorem Outline.pairwise_names (o : Outline) (t : Token) :
    (o.names t).Pairwise fun i j => i.position < j.position := by
  unfold names
  split
  · cases t.ident? <;> simp
  · simp

theorem Outline.InFront.next (h : o.InFront (t :: ts)) (ht : ∀ u ∈ ts, t.position < u.position) :
    (o.next t).InFront ts := by
  have hrest : ∀ b ∈ o.blocks, (b.names.Pairwise fun i j => i.position < j.position) ∧
      ∀ i ∈ b.names, ∀ u ∈ ts, i.position < u.position := by
    intro b hb
    obtain ⟨hnames, hfront⟩ := h b hb
    exact ⟨hnames, fun i hi u hu => hfront i hi u (List.mem_cons_of_mem t hu)⟩
  unfold InFront Outline.next
  split
  · exact List.forall_mem_cons.2 ⟨by simp, hrest⟩
  · split
    · exact fun b hb => hrest b (List.mem_of_mem_tail hb)
    · cases hblocks : o.blocks with
      | nil => simp
      | cons b bs =>
        rw [hblocks] at hrest
        obtain ⟨⟨hnames, hfront⟩, hbs⟩ := List.forall_mem_cons.1 hrest
        refine List.forall_mem_cons.2 ⟨⟨?_, ?_⟩, hbs⟩
        · refine List.pairwise_append.2 ⟨hnames, o.pairwise_names t, ?_⟩
          intro i hi j hj
          rw [position_of_mem_names hj]
          exact (h b (by simp [hblocks])).2 i hi t (by simp)
        · intro i hi u hu
          rcases List.mem_append.1 hi with hi | hi
          · exact hfront i hi u hu
          · rw [position_of_mem_names hi]
            exact ht u hu

theorem Outline.pairwise_of_mem_closed (h : o.InFront ts)
    (hts : ts.Pairwise fun t u => t.position < u.position) :
    ∀ b ∈ o.closed ts, b.names.Pairwise fun i j => i.position < j.position := by
  induction ts generalizing o with
  | nil => simp [closed]
  | cons t ts ih =>
    obtain ⟨ht, hts⟩ := List.pairwise_cons.1 hts
    intro b hb
    rcases List.mem_append.1 hb with hb | hb
    · have hopen : b ∈ o.blocks := by
        unfold closes at hb
        split at hb
        · exact List.mem_of_mem_head? (Option.mem_toList.1 hb)
        · simp at hb
      exact (h b hopen).1
    · exact ih (h.next ht) hts b hb

/-- Where tokens are in the order of their places, a repeated name is behind the one before. -/
theorem Block.Reports.position_lt {b : Block} {name : String} {scope : Scope}
    {first second : Position} (h : b.Reports (.duplicateName name scope first second))
    (hb : b ∈ blocksOf ts) (hts : ts.Pairwise fun t u => t.position < u.position) :
    first < second := by
  obtain ⟨before, i, between, j, after, hnames, -, -, he⟩ := h
  obtain ⟨-, -, rfl, rfl⟩ := ParseError.duplicateName.inj he
  have hstart : Outline.start.InFront ts := by simp [Outline.InFront, Outline.start]
  have hincreasing := Outline.pairwise_of_mem_closed hstart hts b hb
  rw [hnames] at hincreasing
  exact (List.pairwise_append.1 hincreasing).2.2 i (by simp) j (by simp)

end Order

end SchemaLang
