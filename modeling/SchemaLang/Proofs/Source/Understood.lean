import SchemaLang.Proofs.Lexer.Quoting
import SchemaLang.Proofs.Numeral.Decimal
import SchemaLang.Proofs.Parser.ViablePrefix
import SchemaLang.Proofs.Source.Tokenized

/-!
# The parser understands every token of a text

A lexeme is what the readers of leaves take it for: a string literal has a value, a
type name names a type, and of the numerals only integers out of range are refused.
What the readers do with other tokens never happens to a text.
-/
namespace SchemaLang

open Lexical Numeral

/-- The token means what its class says. -/
structure Token.Understood (t : Token) : Prop where
  /-- The escapes in a string literal are whole, and its value is the one that is read. -/
  string : t.kind = .string → ∃ body, Quoted.inside? t.lexeme.toList = some body ∧
    ¬ Quoted.Dangling body ∧ t.stringValue? = some (String.ofList (Quoted.unescape body)) ∧
    scalar? t = some (.ok (.string (String.ofList (Quoted.unescape body))))
  typeName : t.kind = .typeName → ∃ p, Primitive.ofName? t.lexeme = some p
  boolean : t.kind = .boolean → t.lexeme = "true" ∨ t.lexeme = "false"
  float : t.kind = .float → ∃ rank, Binary64.ofText? t.lexeme = some (.ofRank false rank) ∧
    Binary64.ofText? ("-" ++ t.lexeme) = some (.ofRank true rank)

/-- Digits, perhaps with a minus sign, of a number that no 64-bit integer is. -/
inductive OutOfRange : String → Prop where
  | plain {ds : List Char} : IsDigits ds → 2 ^ 63 ≤ natural ds → OutOfRange (String.ofList ds)
  | negated {ds : List Char} :
      IsDigits ds → 2 ^ 63 < natural ds → OutOfRange (String.ofList ('-' :: ds))

section Lexemes

variable {t : Token}

/-- A word that names a type has its class. -/
theorem Token.Lexed.kind_of_mem_typeNames (h : t.Lexed) (hm : t.lexeme ∈ typeNames) :
    t.kind = .typeName := by
  obtain ⟨l, rest, hlexeme, hl⟩ := h.lexeme rfl
  rw [hlexeme] at hm
  generalize t.kind = kind at hl
  have halpha : ∃ c cs, l = c :: cs ∧ c.isAlpha := by
    simp only [typeNames, List.mem_cons, List.not_mem_nil, or_false] at hm
    rcases hm with hm | hm | hm
    all_goals
      obtain rfl : l = _ := by simpa using congrArg String.toList hm
      exact ⟨_, _, rfl, by decide⟩
  obtain ⟨c, cs, rfl, hc⟩ := halpha
  have hscan := scan_of_lexeme hl
  rw [List.cons_append, scan_of_isAlpha hc, ← List.cons_append] at hscan
  obtain ⟨hkind, htaken, -⟩ := Scan.mk.inj hscan
  rw [htaken, (wordClass_iff _ _).1 (.typeName hm)] at hkind
  exact (Except.ok.inj hkind).symm

theorem Token.Lexed.understood (h : t.Lexed) : t.Understood where
  string hk := by
    obtain ⟨l, rest, hlexeme, hl⟩ := h.lexeme hk
    obtain ⟨body, rfl, hb⟩ := body_of_string hl
    have hinside : Quoted.inside? t.lexeme.toList = some body := by
      rw [hlexeme, String.toList_ofList, Quoted.inside?_quotes]
    have hvalue : t.stringValue? = some (String.ofList (Quoted.unescape body)) := by
      simp only [stringValue?, hk, if_true, hinside, Option.map_some]
    refine ⟨body, hinside, Quoted.not_dangling_of_body hb, hvalue, ?_⟩
    simp only [scalar?, hk, hvalue, Option.getD_some]
  typeName hk := by
    obtain ⟨l, rest, hlexeme, hl⟩ := h.lexeme hk
    have hm := mem_typeNames_of_typeName hl
    rw [← hlexeme] at hm
    simp only [typeNames, List.mem_cons, List.not_mem_nil, or_false] at hm
    rcases hm with hm | hm | hm
    · exact ⟨.number, Primitive.ofName?_eq_some_iff.2 hm⟩
    · exact ⟨.string, Primitive.ofName?_eq_some_iff.2 hm⟩
    · exact ⟨.boolean, Primitive.ofName?_eq_some_iff.2 hm⟩
  boolean hk := by
    obtain ⟨l, rest, hlexeme, hl⟩ := h.lexeme hk
    have hm := mem_booleans_of_boolean hl
    rw [← hlexeme] at hm
    simpa using hm
  float hk := by
    obtain ⟨l, rest, hlexeme, hl⟩ := h.lexeme hk
    obtain ⟨ds, fs, rfl, hd, hf⟩ := fraction_of_float hl
    rw [hlexeme]
    exact Binary64.ofText?_of_fraction hd hf

/-- The end of the input means nothing more. -/
theorem understood_endAt (p : Position) : (endAt p).Understood where
  string := nofun
  typeName := nofun
  boolean := nofun
  float := nofun

end Lexemes

section Errors

variable {t : Token} {e : ParseError}

/-- What an error can say about a token of a text. -/
def ParseError.OfText : ParseError → Prop
  | .unexpectedToken .type found _ => found ∉ typeNames
  | .invalidLiteral lexeme _ => OutOfRange lexeme
  | .tokensAfterEnd _ _ => False
  | _ => True

theorem ParseError.IsDuplicate.ofText (h : e.IsDuplicate) : e.OfText := by
  obtain ⟨name, scope, first, second, rfl⟩ := h
  trivial

theorem number?_ofText (negative : Bool) {p : Position} (h : t.Lexed) {text : String}
    (htext : text = if negative then "-" ++ t.lexeme else t.lexeme)
    (he : number? t.kind text p = some (.error e)) : e.OfText := by
  cases hk : t.kind with
  | integer =>
    obtain ⟨ds, rest, hlexeme, hl⟩ := h.lexeme hk
    have hd := isDigits_of_integer hl
    rw [hk] at he
    cases hv : int64? text with
    | some v => simp [number?, hv] at he
    | none =>
      obtain rfl := number?_eq_error he
      cases negative with
      | true =>
        obtain rfl : text = String.ofList ('-' :: ds) := by
          rw [htext, if_pos rfl, hlexeme, minus_append]
        rw [int64?_negated_of_isDigits hd] at hv
        exact .negated hd (by have := narrow?_eq_none hv; omega)
      | false =>
        obtain rfl : text = String.ofList ds := htext.trans hlexeme
        rw [int64?_of_isDigits hd] at hv
        exact .plain hd (by have := narrow?_eq_none hv; omega)
  | float =>
    obtain ⟨rank, hplain, hnegated⟩ := h.understood.float hk
    rw [hk] at he
    cases negative with
    | true =>
      obtain rfl : text = "-" ++ t.lexeme := htext
      simp [number?, hnegated] at he
    | false =>
      obtain rfl : text = t.lexeme := htext
      simp [number?, hplain] at he
  | _ => simp [number?, hk] at he

theorem typeLeaf?_ofText (h : t.Lexed) (he : typeLeaf? t = some (.error e)) : e.OfText := by
  unfold typeLeaf? at he
  split at he
  · next hk =>
    obtain ⟨p, hp⟩ := h.understood.typeName hk
    simp [hp] at he
  · simp at he
  · simp at he

theorem scalar?_ofText (h : t.Lexed) (he : scalar? t = some (.error e)) : e.OfText := by
  unfold scalar? at he
  split at he
  · simp at he
  · simp at he
  · exact number?_ofText false h rfl he

/-- Where a type is due no type name is turned away. -/
theorem State.kind_ne_of_reject {limit : Option Nat} {s : State} (h : s.step limit t = .reject)
    (hs : s.expected = .type) : t.kind ≠ .typeName := by
  intro hk
  obtain ⟨leaf, hleaf⟩ : ∃ leaf, typeGrammar.leaf? t = some leaf := by
    simp only [typeGrammar, typeLeaf?, hk]
    exact ⟨_, rfl⟩
  have hbrace := Token.isSymbol_eq_false_of_kind (t := t) (by simp [hk]) "\x7b"
  cases s with
  | fields m i b =>
    obtain ⟨place, outer⟩ := b
    cases place with
    | value =>
      have hsigned : typeGrammar.signed = false := rfl
      simp only [step, Body.step, hbrace, hsigned, hleaf, Bool.false_and, if_false,
        Bool.false_eq_true] at h
      cases leaf <;> cases outer <;> simp [Body.completeLeaf, Body.complete, ofBody] at h
    | _ => simp [expected, Place.expected] at hs
  | value m kind i b =>
    obtain ⟨place, outer⟩ := b
    cases place <;> simp [expected, Place.expected, literalGrammar] at hs
  | sign m form i => cases form <;> simp [expected, Form.expected] at hs
  | _ => simp [expected] at hs

/-- The errors of a run over tokens of a text. -/
theorem run_ofText {limit : Option Nat} {p : Position} {ts : List Token}
    (hts : ∀ t ∈ ts, t.Lexed) (h : (State.between.run limit p ts).result = .error e) :
    e.OfText := by
  rcases State.run_eq_error h with ⟨x, rfl⟩ | ⟨pre, t, post, ms, u, rfl, -, hstep⟩
  · trivial
  · have ht : t.Lexed := hts t (by simp)
    rcases hstep with hstep | ⟨hstep, rfl⟩
    · have hk := (State.step_move limit u t).keeps_error (E := ParseError.OfText)
        (fun _ _ => trivial) (fun _ hd => hd.ofText) (fun _ => typeLeaf?_ofText ht)
        (fun _ => scalar?_ofText ht) fun _ _ => number?_ofText true ht rfl
      rwa [hstep] at hk
    · cases hx : u.expected with
      | type =>
        intro hm
        exact State.kind_ne_of_reject hstep hx (ht.kind_of_mem_typeNames hm)
      | _ => trivial

end Errors

/-- Of every text that has tokens the parser takes these as they are and understands each of
them. So it never finds one behind the end of the input, never turns a type name away where a
type is due, and refuses no numeral but that of an integer out of range. -/
theorem tokens_understood {source : String} {ts : List Token} (h : tokenize source = .ok ts) :
    (∀ t ∈ ts, t.Understood) ∧
    (∃ p, Parser.ofTokens ts = .ok p ∧ p.unread ++ [endAt p.endPosition] = ts) ∧
    ∀ e, parse ts = .error e →
      (∀ found p, e ≠ .tokensAfterEnd found p) ∧
      (∀ t ∈ ts, t.kind = .typeName → ∀ p, e ≠ .unexpectedToken .type t.lexeme p) ∧
      ∀ lexeme p, e = .invalidLiteral lexeme p → OutOfRange lexeme := by
  obtain ⟨c, hc⟩ := Cutting.exists_cuts h
  obtain rfl := Except.ok.inj (hc.tokenize.symm.trans h)
  have hlexed := lexed_of_mem_placed hc.pieces (Position.start.after c.front)
  have hparser := ofTokens_append_end (e := endAt (Position.start.after source.toList))
    (kind_ne_of_mem_placed hc.pieces (Position.start.after c.front)) rfl
  have hunderstood : ∀ t ∈ placed (Position.start.after c.front) c.pieces ++
      [endAt (Position.start.after source.toList)], t.Understood := by
    intro t ht
    rcases List.mem_append.1 ht with ht | ht
    · exact (hlexed t ht).understood
    · rw [List.mem_singleton.1 ht]
      exact understood_endAt _
  refine ⟨hunderstood, ⟨_, hparser, rfl⟩, ?_⟩
  intro e he
  rw [parse, parseWithin_of_ofTokens hparser] at he
  have hof := run_ofText hlexed he
  refine ⟨?_, ?_, ?_⟩
  · rintro found p rfl
    exact hof
  · rintro t ht hk p rfl
    obtain ⟨q, hq⟩ := (hunderstood t ht).typeName hk
    rw [Primitive.ofName?_eq_some_iff] at hq
    have hname : q.name ∈ typeNames := by cases q <;> decide
    exact hof (hq ▸ hname)
  · rintro lexeme p rfl
    exact hof

/-- A string literal that ends in an escaped backslash, and an integer one below the least. -/
def overflowText : String := "module m \x7b let s = \"\\\\\" let n = -9223372036854775809 \x7d"

def overflowTokens : List Token :=
  [⟨.keyword, "module", ⟨1, 1⟩⟩, ⟨.identifier, "m", ⟨1, 8⟩⟩, ⟨.symbol, "\x7b", ⟨1, 10⟩⟩,
    ⟨.keyword, "let", ⟨1, 12⟩⟩, ⟨.identifier, "s", ⟨1, 16⟩⟩, ⟨.symbol, "=", ⟨1, 18⟩⟩,
    ⟨.string, "\"\\\\\"", ⟨1, 20⟩⟩, ⟨.keyword, "let", ⟨1, 25⟩⟩, ⟨.identifier, "n", ⟨1, 29⟩⟩,
    ⟨.symbol, "=", ⟨1, 31⟩⟩, ⟨.symbol, "-", ⟨1, 33⟩⟩, ⟨.integer, "9223372036854775809", ⟨1, 34⟩⟩,
    ⟨.symbol, "\x7d", ⟨1, 54⟩⟩, ⟨.endOfInput, "", ⟨1, 55⟩⟩]

theorem overflowText_understood : tokenize overflowText = .ok overflowTokens ∧
    (∀ t ∈ overflowTokens, t.Understood) ∧
    parse overflowTokens = .error (.invalidLiteral "-9223372036854775809" ⟨1, 33⟩) ∧
    OutOfRange "-9223372036854775809" :=
  have h : tokenize overflowText = .ok overflowTokens := by decide +kernel
  have he : parse overflowTokens = .error (.invalidLiteral "-9223372036854775809" ⟨1, 33⟩) := rfl
  ⟨h, (tokens_understood h).1, he, ((tokens_understood h).2.2 _ he).2.2 _ _ rfl⟩

end SchemaLang
