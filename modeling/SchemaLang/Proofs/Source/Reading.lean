import Mathlib.Data.List.Forall2
import SchemaLang.Proofs.Lexer.Quoting
import SchemaLang.Proofs.Lexer.Standing
import SchemaLang.Proofs.Numeral.Integer
import SchemaLang.Proofs.Program.Reading
import SchemaLang.Proofs.Source.Tokenized

/-!
# Text and program read together

Keywords and symbols aside, the tokens of a text and the mentions of its program are
the same one by one and in the same order. The induction is on derivations; the token
right before is carried along, since a minus sign there belongs to a number, and since
a name never stands right behind a number.
-/
namespace SchemaLang

open Grammar Lexical

variable {α β : Type}

/-- Keywords and symbols only shape a program, all other tokens are in it. -/
def TokenKind.isContent : TokenKind → Bool
  | identifier | typeName | integer | float | string | boolean => true
  | keyword | symbol | endOfInput => false

/-- The tokens that are in the program, each with the one right before it. -/
def contents (previous : Option Token) (ts : List Token) : List (Option Token × Token) :=
  (withPrevious previous ts).filter fun x => x.2.kind.isContent

/-- A keyword or a symbol, but no sign. -/
def Token.Leads (q : Token) : Prop := q.kind = .keyword ∨ q.kind = .symbol ∧ q.lexeme ≠ "-"

def isMinus (previous : Option Token) : Bool := previous.any (·.isSymbol "-")

/-- The value of a token. A number is negative behind a minus sign, and nothing else is. -/
inductive Scalar.SpelledBy (negative : Bool) (t : Token) : Scalar → Prop where
  | integer {v : Int64} :
      t.kind = .integer → IsDigits t.lexeme.toList →
      v.toInt = Numeral.signed negative (Numeral.natural t.lexeme.toList) →
      SpelledBy negative t (.integer v)
  | float {x : Numeral.Binary64} :
      t.kind = .float →
      Numeral.Binary64.ofText? (if negative then "-" ++ t.lexeme else t.lexeme) = some x →
      SpelledBy negative t (.float x)
  | string {s : String} :
      t.kind = .string → negative = false → t.stringValue? = some s →
      SpelledBy negative t (.string s)
  | boolean {b : Bool} :
      t.kind = .boolean → negative = false → t.lexeme = (if b then "true" else "false") →
      SpelledBy negative t (.boolean b)

/-- What a token says, with the token right before it. -/
inductive Mention.SpelledBy : Mention → Option Token × Token → Prop where
  | name {q t : Token} :
      q.Leads → t.kind = .identifier → SpelledBy (.name ⟨t.lexeme, t.position⟩) (some q, t)
  | key {q t : Token} : q.Leads → t.kind = .identifier → SpelledBy (.key t.lexeme) (some q, t)
  | primitive {q t : Token} {p : Primitive} :
      q.Leads → t.kind = .typeName → t.lexeme = p.name → SpelledBy (.primitive p) (some q, t)
  | scalar {previous : Option Token} {t : Token} {v : Scalar} :
      v.SpelledBy (isMinus previous) t → SpelledBy (.scalar v) (previous, t)

/-- Mentions and tokens are the same one by one. -/
abbrev SpelledOut : List Mention → List (Option Token × Token) → Prop :=
  List.Forall₂ Mention.SpelledBy

section Contents

variable {previous : Option Token} {t : Token}

theorem withPrevious_append (previous : Option Token) (ts us : List Token) :
    withPrevious previous (ts ++ us) =
      withPrevious previous ts ++ withPrevious (ts.getLast?.or previous) us := by
  induction ts generalizing previous with
  | nil => rfl
  | cons t ts ih =>
    rw [List.cons_append, withPrevious, withPrevious, ih, List.cons_append, List.getLast?_cons]
    cases ts.getLast? <;> rfl

theorem contents_append (previous : Option Token) (ts us : List Token) :
    contents previous (ts ++ us) =
      contents previous ts ++ contents (ts.getLast?.or previous) us := by
  rw [contents, withPrevious_append, List.filter_append]
  rfl

@[simp] theorem contents_nil : contents previous [] = [] := rfl

theorem contents_cons (ht : t.kind.isContent = true) (ts : List Token) :
    contents previous (t :: ts) = (previous, t) :: contents (some t) ts := by
  simp [contents, withPrevious, ht]

theorem contents_cons_of_not (ht : t.kind.isContent = false) (ts : List Token) :
    contents previous (t :: ts) = contents (some t) ts := by
  simp [contents, withPrevious, ht]

theorem contents_name {i : Ident} (h : Names t i) (ts : List Token) :
    contents previous (t :: ts) = (previous, t) :: contents (some t) ts :=
  contents_cons (by rw [h.1]; rfl) ts

theorem contents_symbol {s : String} (h : t.isSymbol s) (ts : List Token) :
    contents previous (t :: ts) = contents (some t) ts :=
  contents_cons_of_not (by rw [(Token.isSymbol_iff.1 h).1]; rfl) ts

theorem contents_keyword {s : String} (h : t.isKeyword s) (ts : List Token) :
    contents previous (t :: ts) = contents (some t) ts :=
  contents_cons_of_not (by rw [(Token.isKeyword_iff.1 h).1]; rfl) ts

/-- What is right before a symbol does not matter. -/
theorem contents_append_symbol {s : String} (h : t.isSymbol s) (ts us : List Token) :
    contents previous (ts ++ t :: us) = contents previous ts ++ contents (some t) us := by
  rw [contents_append, contents_symbol h]

/-- Without its company a token is as in the text, and none is left out but by its class. -/
theorem map_snd_contents (previous : Option Token) (ts : List Token) :
    (contents previous ts).map Prod.snd = ts.filter (·.kind.isContent) := by
  have h := List.filter_map (f := Prod.snd) (p := fun t : Token => t.kind.isContent)
    (l := withPrevious previous ts)
  rw [map_snd_withPrevious] at h
  exact h.symm

end Contents

section Leaves

variable {q t : Token}

theorem Token.leads_of_isSymbol {s : String} (h : q.isSymbol s) (hs : s ≠ "-") : q.Leads := by
  obtain ⟨hk, hl⟩ := isSymbol_iff.1 h
  exact .inr ⟨hk, hl ▸ hs⟩

theorem Token.leads_of_isKeyword {s : String} (h : q.isKeyword s) : q.Leads :=
  .inl (isKeyword_iff.1 h).1

theorem Token.Leads.isMinus (h : q.Leads) : isMinus (some q) = false := by
  rcases h with h | ⟨-, h⟩
  · simp [SchemaLang.isMinus, isSymbol, h]
  · simp [SchemaLang.isMinus, isSymbol, h]

theorem Grammar.Names.spelledBy {i : Ident} (h : Names t i) (hq : q.Leads) :
    (Mention.name i).SpelledBy (some q, t) := by
  obtain ⟨hk, rfl⟩ := h
  exact .name hq hk

theorem Grammar.Names.spelledBy_key {i : Ident} (h : Names t i) (hq : q.Leads) :
    (Mention.key i.name).SpelledBy (some q, t) := by
  obtain ⟨hk, rfl⟩ := h
  exact .key hq hk

/-- The integer of a token with or without its sign. -/
theorem spelledBy_of_int64? {negative : Bool} {v : Int64} (ht : t.Lexed) (hk : t.kind = .integer)
    (h : Numeral.int64? (if negative then "-" ++ t.lexeme else t.lexeme) = some v) :
    (Scalar.integer v).SpelledBy negative t := by
  obtain ⟨ds, rest, hlexeme, hl⟩ := ht.lexeme hk
  have hd := isDigits_of_integer hl
  have hds : t.lexeme.toList = ds := by rw [hlexeme, String.toList_ofList]
  refine .integer hk (hds ▸ hd) ?_
  rw [hds]
  cases negative with
  | true =>
    rw [if_pos rfl, hlexeme, Numeral.minus_append, Numeral.int64?_negated_of_isDigits hd] at h
    exact Numeral.toInt_of_narrow? h
  | false =>
    rw [if_neg (by decide), hlexeme, Numeral.int64?_of_isDigits hd] at h
    exact Numeral.toInt_of_narrow? h

/-- Behind a keyword or a symbol the tokens that spell a leaf say what it mentions. -/
def SpellsLeaf (leaf : List Token → α → Prop) (mention : α → Mention) : Prop :=
  ∀ ts a q, (∀ t ∈ ts, t.Lexed) → leaf ts a → q.Leads →
    SpelledOut [mention a] (contents (some q) ts)

theorem spellsLeaf_typeText : SpellsLeaf TypeText TypeLeaf.mention := by
  intro ts a q _ h hq
  cases h with
  | primitive hk hl =>
    rw [contents_cons (by rw [hk]; rfl)]
    exact .cons (.primitive hq hk hl) .nil
  | named hn =>
    rw [contents_name hn]
    exact .cons (hn.spelledBy hq) .nil

/-- A number is the only token of its text, with the sign right before it if there is one. -/
theorem exists_contents_of_numberText {ts : List Token} {kind : TokenKind} {text : String}
    (h : NumberText ts kind text) (hkind : kind.isContent = true) (hq : q.Leads) :
    ∃ previous t, t ∈ ts ∧ contents (some q) ts = [(previous, t)] ∧ t.kind = kind ∧
      text = if isMinus previous then "-" ++ t.lexeme else t.lexeme := by
  cases h with
  | @plain t =>
    refine ⟨some q, t, by simp, contents_cons hkind [], rfl, ?_⟩
    rw [hq.isMinus, if_neg (by decide)]
  | @negated m t hm _ =>
    refine ⟨some m, t, by simp, ?_, rfl, ?_⟩
    · rw [contents_symbol hm, contents_cons hkind, contents_nil]
    · rw [if_pos (show isMinus (some m) = true from hm)]

theorem spellsLeaf_scalarText : SpellsLeaf ScalarText Mention.scalar := by
  intro ts a q ht h hq
  cases h with
  | integer hn hv =>
    obtain ⟨previous, t, hmem, hcontents, hk, rfl⟩ := exists_contents_of_numberText hn rfl hq
    rw [hcontents]
    exact .cons (.scalar (spelledBy_of_int64? (ht t hmem) hk hv)) .nil
  | float hn hx =>
    obtain ⟨previous, t, -, hcontents, hk, rfl⟩ := exists_contents_of_numberText hn rfl hq
    rw [hcontents]
    exact .cons (.scalar (.float hk hx)) .nil
  | @string t hk =>
    have hmem : t.Lexed := ht t (by simp)
    obtain ⟨l, rest, hlexeme, hl⟩ := hmem.lexeme hk
    obtain ⟨body, rfl, -⟩ := body_of_string hl
    rw [contents_cons (by rw [hk]; rfl)]
    refine .cons (.scalar (.string hk hq.isMinus ?_)) .nil
    simp only [Token.stringValue?, hk, if_true, hlexeme, String.toList_ofList,
      Quoted.inside?_quotes, Option.map_some, Option.getD_some]
  | @boolean t hk =>
    have hmem : t.Lexed := ht t (by simp)
    obtain ⟨l, rest, hlexeme, hl⟩ := hmem.lexeme hk
    have hword := mem_booleans_of_boolean hl
    rw [← hlexeme] at hword
    rw [contents_cons (by rw [hk]; rfl)]
    refine .cons (.scalar (.boolean hk hq.isMinus ?_)) .nil
    by_cases htrue : t.lexeme = "true"
    · simp [htrue]
    · simpa [htrue] using hword

end Leaves

section Trees

variable {leaf : List Token → α → Prop} {key : Ident → Mention} {mention : α → Mention}

-- One statement for each production. Only in front of a leaf or a name it matters which token
-- is right before, and that is a colon, a comma, a brace or the sign of a declaration.
mutual

theorem spelledOut_value
    (hkey : ∀ q t i, Names t i → q.Leads → (key i).SpelledBy (some q, t))
    (hleaf : SpellsLeaf leaf mention) {ts : List Token} {v : Tree Ident α} {q : Token}
    (h : Value leaf ts v) (ht : ∀ t ∈ ts, t.Lexed) (hq : q.Leads) :
    SpelledOut (v.reading key mention) (contents (some q) ts) := by
  cases h with
  | leaf ha => exact hleaf _ _ _ ht ha hq
  | object hb => exact spelledOut_braced hkey hleaf hb ht

theorem spelledOut_braced
    (hkey : ∀ q t i, Names t i → q.Leads → (key i).SpelledBy (some q, t))
    (hleaf : SpellsLeaf leaf mention) {ts : List Token} {es : List (Ident × Tree Ident α)}
    {previous : Option Token} (h : Braced leaf ts es) (ht : ∀ t ∈ ts, t.Lexed) :
    SpelledOut ((Tree.object es).reading key mention) (contents previous ts) := by
  rw [Tree.reading_object]
  cases h with
  | empty ho hc =>
    rw [contents_symbol ho, contents_symbol hc]
    exact .nil
  | @items o c ts tail es ho hi htail hc =>
    have hitems := spelledOut_items hkey hleaf hi (fun t hm => ht t (by simp [hm]))
      (Token.leads_of_isSymbol ho (by decide))
    cases htail with
    | absent =>
      rw [List.append_nil, contents_symbol ho, contents_append_symbol hc, contents_nil,
        List.append_nil]
      exact hitems
    | @comma d hd =>
      rw [List.append_assoc, contents_symbol ho, List.singleton_append,
        contents_append_symbol hd, contents_symbol hc, contents_nil, List.append_nil]
      exact hitems

theorem spelledOut_items
    (hkey : ∀ q t i, Names t i → q.Leads → (key i).SpelledBy (some q, t))
    (hleaf : SpellsLeaf leaf mention) {ts : List Token} {es : List (Ident × Tree Ident α)}
    {q : Token} (h : Items leaf ts es) (ht : ∀ t ∈ ts, t.Lexed) (hq : q.Leads) :
    SpelledOut (es.flatMap fun e => key e.1 :: e.2.reading key mention) (contents (some q) ts) := by
  cases h with
  | one hi =>
    rw [List.flatMap_singleton]
    exact spelledOut_item hkey hleaf hi ht hq
  | more hi hc his =>
    rw [List.flatMap_cons, contents_append_symbol hc]
    have hitem := spelledOut_item hkey hleaf hi (fun t hm => ht t (by simp [hm])) hq
    have hitems := spelledOut_items hkey hleaf his (fun t hm => ht t (by simp [hm]))
      (Token.leads_of_isSymbol hc (by decide))
    exact List.rel_append hitem hitems

theorem spelledOut_item
    (hkey : ∀ q t i, Names t i → q.Leads → (key i).SpelledBy (some q, t))
    (hleaf : SpellsLeaf leaf mention) {ts : List Token} {e : Ident × Tree Ident α} {q : Token}
    (h : Item leaf ts e) (ht : ∀ t ∈ ts, t.Lexed) (hq : q.Leads) :
    SpelledOut (key e.1 :: e.2.reading key mention) (contents (some q) ts) := by
  cases h with
  | mk hn hc hv =>
    rw [contents_name hn, contents_symbol hc]
    exact .cons (hkey _ _ _ hn hq) (spelledOut_value hkey hleaf hv
      (fun t hm => ht t (by simp [hm])) (Token.leads_of_isSymbol hc (by decide)))

end

end Trees

section Programs

/-- Whatever is right before, the tokens of a piece say what it mentions. -/
def SpellsPiece (piece : List Token → β → Prop) (reading : β → List Mention) : Prop :=
  ∀ ts b previous, (∀ t ∈ ts, t.Lexed) → piece ts b → SpelledOut (reading b) (contents previous ts)

theorem SpellsPiece.many {piece : List Token → β → Prop} {reading : β → List Mention}
    (h : SpellsPiece piece reading) : SpellsPiece (Many piece) (List.flatMap reading) := by
  intro ts bs previous ht hbs
  induction hbs generalizing previous with
  | nil => exact .nil
  | cons hb _ ih =>
    rw [List.flatMap_cons, contents_append]
    have hfirst := h _ _ previous (fun t hm => ht t (by simp [hm])) hb
    exact List.rel_append hfirst (ih _ fun t hm => ht t (by simp [hm]))

theorem spellsPiece_declares : SpellsPiece Declares Declaration.reading := by
  intro ts d previous ht h
  cases h with
  | type hk hn ha hb =>
    rw [contents_keyword hk, contents_name hn, contents_symbol ha]
    exact .cons (hn.spelledBy (Token.leads_of_isKeyword hk))
      (spelledOut_braced (fun _ _ _ hn hq => hn.spelledBy hq) spellsLeaf_typeText hb
        fun t hm => ht t (by simp [hm]))
  | binding hk hn ha hv =>
    rw [contents_keyword hk, contents_name hn, contents_symbol ha, Declaration.reading,
      Tree.reading_mapKeys]
    exact .cons (hn.spelledBy (Token.leads_of_isKeyword hk))
      (spelledOut_value (fun _ _ _ hn hq => hn.spelledBy_key hq) spellsLeaf_scalarText hv
        (fun t hm => ht t (by simp [hm])) (Token.leads_of_isSymbol ha (by decide)))

theorem spellsPiece_isModule : SpellsPiece IsModule Module.reading := by
  intro ts m previous ht h
  cases h with
  | mk hk hn ho hds hc =>
    rw [contents_keyword hk, contents_name hn, contents_symbol ho, contents_append_symbol hc,
      contents_nil, List.append_nil]
    exact .cons (hn.spelledBy (Token.leads_of_isKeyword hk))
      (spellsPiece_declares.many _ _ _ (fun t hm => ht t (by simp [hm])) hds)

/-- Every name that is mentioned is so by one of the tokens. -/
theorem forall_name_of_spelledOut {ms : List Mention} {xs : List (Option Token × Token)}
    {P : Ident → Prop} (h : SpelledOut ms xs)
    (hP : ∀ x ∈ xs, ∀ i, (Mention.name i).SpelledBy x → P i) : ∀ i, Mention.name i ∈ ms → P i := by
  induction h with
  | nil => simp
  | cons hm _ ih =>
    obtain ⟨hfirst, hrest⟩ := List.forall_mem_cons.1 hP
    intro i hi
    rcases List.mem_cons.1 hi with rfl | hi
    · exact hfirst i hm
    · exact ih hrest i hi

/-- Mentions with a place have that of their token, so their places are among those of the
tokens and in the same order. -/
theorem positions_sublist {ms : List Mention} {xs : List (Option Token × Token)}
    (h : SpelledOut ms xs) :
    ((ms.filterMap Mention.ident?).map (·.position)).Sublist (xs.map (·.2.position)) := by
  induction h with
  | nil => exact .slnil
  | cons hm _ ih =>
    cases hm with
    | name => exact ih.cons_cons _
    | key => exact ih.cons _
    | primitive => exact ih.cons _
    | scalar => exact ih.cons _

end Programs

section Words

/-- In the text the name is a whole word at its place. -/
def Ident.IsWordOf (text : List Char) (i : Ident) : Prop :=
  ∃ before after, text = before ++ (i.name.toList ++ after) ∧ i.position = .behind before ∧
    IsWord i.name.toList ∧ (∀ c ∈ before.getLast?, isWordChar c = false) ∧
    ∀ c ∈ after.head?, isWordChar c = false

/-- In front of a word a gap ends in a blank, since a comment would go on. -/
theorem getLast?_of_gap {gap rest : List Char} (h : Gap gap rest)
    (hrest : ∃ c cs, rest = c :: cs ∧ c ≠ '\n') : ∀ c ∈ gap.getLast?, isBlank c := by
  induction h with
  | nil => simp
  | @blank b cs rest hb _ ih =>
    intro c hc
    rw [List.getLast?_cons] at hc
    cases hcs : cs.getLast? with
    | none =>
      obtain rfl : b = c := by simpa [hcs] using hc
      exact hb
    | some d =>
      obtain rfl : d = c := by simpa [hcs] using hc
      exact ih hrest d hcs
  | @comment body cs rest _ hend _ ih =>
    have hne : cs ≠ [] := by
      rintro rfl
      obtain ⟨c, cs, rfl, hc⟩ := hrest
      exact hc (hend c rfl)
    obtain ⟨d, hd⟩ := Option.ne_none_iff_exists'.1 (mt List.getLast?_eq_none_iff.1 hne)
    intro c hc
    obtain rfl : d = c := by simpa [List.getLast?_cons, List.getLast?_append, hd] using hc
    exact ih hrest d hd

theorem not_isWordChar_of_isBlank {c : Char} (h : isBlank c) : isWordChar c = false := by
  simp only [isBlank, decide_eq_true_eq] at h
  rcases h with rfl | rfl | rfl | rfl <;> decide

/-- A word does not go on from a keyword or a symbol. -/
theorem getLast?_of_leads {q : Token} {c : Char} {cs : List Char} (hq : q.Leads)
    (hl : Lexeme q.kind q.lexeme.toList (c :: cs)) (hc : isWordChar c) :
    ∀ d ∈ q.lexeme.toList.getLast?, isWordChar d = false := by
  generalize q.lexeme.toList = l at hl
  have hkind : q.kind = .keyword ∨ q.kind = .symbol := hq.imp id And.left
  generalize q.kind = kind at hl hkind
  cases hl with
  | word _ _ hr =>
    rw [hr c rfl] at hc
    exact nomatch hc
  | integer => simp at hkind
  | float => simp at hkind
  | string => simp at hkind
  | arrow =>
    rintro _ ⟨⟩
    decide
  | equals =>
    rintro _ ⟨⟩
    decide
  | @punctuation p _ hp =>
    rintro _ ⟨⟩
    simp only [List.mem_cons, List.not_mem_nil, or_false] at hp
    rcases hp with rfl | rfl | rfl | rfl | rfl | rfl | rfl | rfl <;> decide

theorem isWordOf_of_stands {text : List Char} {q t : Token} (h : t.Stands text (some q))
    (hk : t.kind = .identifier) (hq : q.Leads) :
    Ident.IsWordOf text ⟨t.lexeme, t.position⟩ := by
  obtain ⟨before, after, htext, hposition, hl, hprevious⟩ := h
  obtain ⟨front, gap, rfl, hgap, hlq⟩ := hprevious q rfl
  rw [hk] at hl
  refine ⟨_, after, htext, hposition, (word_of_identifier hl).1, ?_, ?_⟩
  · obtain ⟨c, cs, hcs, hc⟩ := (word_of_identifier hl).1.exists_cons
    have hword : isWordChar c := by simp [isWordChar, Char.isAlphanum, hc]
    rw [hcs, List.cons_append] at hgap hlq
    intro d hd
    cases hg : gap.getLast? with
    | some b =>
      obtain rfl : b = d := by simpa [List.getLast?_append, hg] using hd
      have hne : c ≠ '\n' := by
        rintro rfl
        exact absurd hc (by decide)
      exact not_isWordChar_of_isBlank (getLast?_of_gap hgap ⟨c, _, rfl, hne⟩ b hg)
    | none =>
      obtain rfl : gap = [] := List.getLast?_eq_none_iff.1 hg
      obtain ⟨b, hb⟩ := Option.ne_none_iff_exists'.1
        (mt List.getLast?_eq_none_iff.1 (lexeme_ne_nil hlq))
      obtain rfl : b = d := by simpa [List.getLast?_append, hb] using hd
      exact getLast?_of_leads hq hlq hword b hb
  · exact head?_of_identifier hl

end Words

/-- Nothing of a text is lost, doubled or moved on the way to its program. Read in source
order, the program mentions its tokens one for one, keywords and symbols aside. Each name has
the place of its token and is a whole word of the text there, and so the places of names
increase. -/
theorem reading_of_parseSource {source : String} {p : Program} (h : parseSource source = .ok p) :
    ∃ ts, tokenize source = .ok ts ∧
      List.Forall₂ Mention.SpelledBy p.reading (contents none ts) ∧
      (∀ i, Mention.name i ∈ p.reading → i.IsWordOf source.toList) ∧
      (p.reading.filterMap Mention.ident?).Pairwise fun i j => i.position < j.position := by
  obtain ⟨c, hc⟩ := exists_cuts_of_parseSource h
  obtain ⟨hderives, -⟩ := (parseSource_of_cuts hc p).1 h
  have hlexed := lexed_of_mem_placed hc.pieces (Position.start.after c.front)
  have hspelled : SpelledOut p.reading
      (contents none (placed (Position.start.after c.front) c.pieces)) :=
    spellsPiece_isModule.many _ _ none hlexed hderives
  have hend : contents none (placed (Position.start.after c.front) c.pieces ++
      [endAt (Position.start.after source.toList)]) =
        contents none (placed (Position.start.after c.front) c.pieces) := by
    rw [contents_append, contents_cons_of_not rfl, contents_nil, List.append_nil]
  refine ⟨_, hc.tokenize, hend ▸ hspelled, ?_, ?_⟩
  · refine forall_name_of_spelledOut hspelled fun x hx i hi => ?_
    have hstands := stands_of_cuts hc x (List.mem_of_mem_filter hx)
    cases hi with
    | name hq hk => exact isWordOf_of_stands hstands hk hq
  · have hincreasing := (List.pairwise_append.1 (increasing_of_tokenize hc.tokenize)).1
    have hcontents := hincreasing.filter (·.kind.isContent)
    rw [← map_snd_contents none, List.pairwise_map] at hcontents
    have hpositions : ((contents none (placed (Position.start.after c.front) c.pieces)).map
        (·.2.position)).Pairwise (· < ·) := List.pairwise_map.2 hcontents
    exact List.pairwise_map.1 (hpositions.sublist (positions_sublist hspelled))

/-- A name of each sort, and a value with its sign. -/
def mentionedText : String :=
  "module m \x7b type T => \x7b a: Number \x7d let n = \x7b k: -5 \x7d \x7d"

theorem mentionedText_reading : ∃ p, parseSource mentionedText = .ok p ∧
    p.reading = [.name ⟨"m", ⟨1, 8⟩⟩, .name ⟨"T", ⟨1, 17⟩⟩, .name ⟨"a", ⟨1, 24⟩⟩,
      .primitive .number, .name ⟨"n", ⟨1, 40⟩⟩, .key "k", .scalar (.integer (-5))] ∧
    ∃ ts, tokenize mentionedText = .ok ts ∧
      List.Forall₂ Mention.SpelledBy p.reading (contents none ts) := by
  have htokens : tokenize mentionedText = .ok
      [⟨.keyword, "module", ⟨1, 1⟩⟩, ⟨.identifier, "m", ⟨1, 8⟩⟩, ⟨.symbol, "\x7b", ⟨1, 10⟩⟩,
        ⟨.keyword, "type", ⟨1, 12⟩⟩, ⟨.identifier, "T", ⟨1, 17⟩⟩, ⟨.symbol, "=>", ⟨1, 19⟩⟩,
        ⟨.symbol, "\x7b", ⟨1, 22⟩⟩, ⟨.identifier, "a", ⟨1, 24⟩⟩, ⟨.symbol, ":", ⟨1, 25⟩⟩,
        ⟨.typeName, "Number", ⟨1, 27⟩⟩, ⟨.symbol, "\x7d", ⟨1, 34⟩⟩, ⟨.keyword, "let", ⟨1, 36⟩⟩,
        ⟨.identifier, "n", ⟨1, 40⟩⟩, ⟨.symbol, "=", ⟨1, 42⟩⟩, ⟨.symbol, "\x7b", ⟨1, 44⟩⟩,
        ⟨.identifier, "k", ⟨1, 46⟩⟩, ⟨.symbol, ":", ⟨1, 47⟩⟩, ⟨.symbol, "-", ⟨1, 49⟩⟩,
        ⟨.integer, "5", ⟨1, 50⟩⟩, ⟨.symbol, "\x7d", ⟨1, 52⟩⟩, ⟨.symbol, "\x7d", ⟨1, 54⟩⟩,
        endAt ⟨1, 55⟩] := by
    decide +kernel
  have h : parseSource mentionedText = .ok ⟨[⟨⟨"m", ⟨1, 8⟩⟩,
      [.type ⟨"T", ⟨1, 17⟩⟩ [(⟨"a", ⟨1, 24⟩⟩, .leaf (.primitive .number))],
        .binding .letBound ⟨"n", ⟨1, 40⟩⟩ (.object [("k", .leaf (.integer (-5)))])]⟩]⟩ := by
    rw [parseSource, htokens]
    rfl
  obtain ⟨ts, hts, hspelled, -, -⟩ := reading_of_parseSource h
  exact ⟨_, h, rfl, ts, hts, hspelled⟩

end SchemaLang
