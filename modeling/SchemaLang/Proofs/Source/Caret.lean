import SchemaLang.FrontEnd
import SchemaLang.Proofs.Lexer.Places
import SchemaLang.Proofs.Lines
import SchemaLang.Proofs.Parser.ErrorPlaces
import SchemaLang.Proofs.Source.Tokenized

/-!
# The caret points at what is wrong

An error of a text is placed where a lexeme stands or at the end, never at a line end. So
the line that is shown with it is the line of that place, and the caret comes to stand
under the character there. What the error says fits on one line.
-/
namespace SchemaLang

open Lexical

section OneLine

/-- A text without a line feed. -/
def OneLine (s : String) : Prop := '\n' ∉ s.toList

instance (s : String) : Decidable (OneLine s) :=
  inferInstanceAs (Decidable ('\n' ∉ s.toList))

theorem oneLine_append_iff {s t : String} : OneLine (s ++ t) ↔ OneLine s ∧ OneLine t := by
  rw [OneLine, String.toList_append, List.mem_append, not_or]
  rfl

theorem oneLine_ofList_iff {cs : List Char} : OneLine (String.ofList cs) ↔ '\n' ∉ cs := by
  rw [OneLine, String.toList_ofList]

theorem Lexical.IsDigits.not_mem_line {ds : List Char} (h : IsDigits ds) : '\n' ∉ ds :=
  fun hm => absurd (h.2 _ hm) (by decide)

theorem oneLine_toString (n : Nat) : OneLine (toString n) :=
  oneLine_ofList_iff.2 (IsDigits.not_mem_line (Numeral.isDigits_toDigits n))

theorem Position.oneLine_text (p : Position) : OneLine p.text := by
  rw [text, oneLine_append_iff, oneLine_append_iff]
  exact ⟨⟨oneLine_toString _, by decide⟩, oneLine_toString _⟩

theorem Lexical.StringBody.not_mem_line {body : List Char} (h : StringBody body) : '\n' ∉ body := by
  induction h with
  | nil => simp
  | plain _ _ hn _ ih => simp [Ne.symm hn, ih]
  | escape hn _ ih => simp [Ne.symm hn, ih]

theorem Expected.oneLine_text (x : Expected) : OneLine x.text := by
  cases x <;> decide

/-- No lexeme goes over the end of a line. -/
theorem not_mem_of_lexeme {kind : TokenKind} {l rest : List Char} (h : Lexeme kind l rest) :
    '\n' ∉ l := by
  cases h with
  | word hw _ _ =>
    cases hw with
    | mk hc hcs =>
      rw [List.mem_cons, not_or]
      constructor
      · rintro rfl
        exact absurd hc (by decide)
      · exact fun hm => absurd (hcs _ hm) (by decide)
  | integer hd _ => exact hd.not_mem_line
  | float hd hf _ => simp [hd.not_mem_line, hf.not_mem_line]
  | string hb => simp [hb.not_mem_line]
  | arrow => decide
  | equals => decide
  | punctuation hc =>
    rw [List.mem_singleton]
    rintro rfl
    exact absurd hc (by decide)

theorem Token.Lexed.oneLine {t : Token} (h : t.Lexed) : OneLine t.lexeme :=
  h.elim fun _ => not_mem_of_lexeme

theorem IsName.oneLine {name : String} (h : IsName name) : OneLine name := by
  have hlexeme : Lexeme .identifier name.toList [] :=
    .word h.1 (by rw [String.ofList_toList]; exact h.2) (by simp)
  exact not_mem_of_lexeme hlexeme

theorem LexError.oneLine_message {e : LexError} {rest : List Char} (h : Faulty e rest) :
    OneLine e.message := by
  cases h with
  | @unexpected c _ _ _ _ hblank _ _ =>
    have hc : OneLine c.toString := by
      rw [OneLine, show c.toString.toList = [c] from String.toList_singleton c,
        List.mem_singleton]
      rintro rfl
      exact hblank (by decide)
    change OneLine ("unexpected character '" ++ c.toString ++ "'")
    simp only [oneLine_append_iff]
    exact ⟨⟨by decide, hc⟩, by decide⟩
  | @badNumber ds _ _ hd _ =>
    have hlexeme : '\n' ∉ ds ++ ['.'] := by simp [hd.not_mem_line]
    change OneLine ("invalid number `" ++ String.ofList (ds ++ ['.']) ++
      "`: expected digits after the decimal point")
    simp only [oneLine_append_iff, oneLine_ofList_iff]
    exact ⟨⟨by decide, hlexeme⟩, by decide⟩
  | unterminated =>
    change OneLine "unterminated string literal"
    decide

theorem ParseError.oneLine_message {e : ParseError} {ts : List Token} (h : e.Quotes ts)
    (hts : ∀ t ∈ ts, OneLine t.lexeme) : OneLine e.message := by
  cases h with
  | @unexpected x t ht =>
    change OneLine ("expected " ++ x.text ++ ", found `" ++ t.lexeme ++ "`")
    simp only [oneLine_append_iff]
    exact ⟨⟨⟨⟨by decide, x.oneLine_text⟩, by decide⟩, hts t ht⟩, by decide⟩
  | @repeated scope t u _ hu _ =>
    have hscope : OneLine scope.name := by cases scope <;> decide
    change OneLine ("duplicate " ++ scope.name ++ " `" ++ u.lexeme ++ "`")
    simp only [oneLine_append_iff]
    exact ⟨⟨⟨⟨by decide, hscope⟩, by decide⟩, hts u hu⟩, by decide⟩
  | @number t ht =>
    change OneLine ("invalid numeric literal `" ++ t.lexeme ++ "`")
    simp only [oneLine_append_iff]
    exact ⟨⟨by decide, hts t ht⟩, by decide⟩
  | @negated m t _ ht =>
    change OneLine ("invalid numeric literal `" ++ ("-" ++ t.lexeme) ++ "`")
    simp only [oneLine_append_iff]
    exact ⟨⟨by decide, by decide, hts t ht⟩, by decide⟩
  | @tooDeep n t _ =>
    change OneLine ("objects nested more than " ++ toString n ++ " levels deep")
    simp only [oneLine_append_iff]
    exact ⟨⟨by decide, oneLine_toString _⟩, by decide⟩

/-- What a diagnostic says and what its note says fit on a line each. -/
structure Diagnostic.Unbroken (d : Diagnostic) : Prop where
  message : OneLine d.message
  note : ∀ text ∈ d.note, OneLine text

theorem LexError.unbroken {e : LexError} {rest : List Char} (h : Faulty e rest) :
    e.diagnostic.Unbroken :=
  ⟨oneLine_message h, by simp [diagnostic]⟩

theorem ParseError.unbroken {e : ParseError} {ts : List Token} (h : e.Quotes ts)
    (hts : ∀ t ∈ ts, OneLine t.lexeme) : e.diagnostic.Unbroken := by
  have hmessage := oneLine_message h hts
  cases h with
  | @repeated _ t u _ hu _ =>
    refine ⟨hmessage, ?_⟩
    rintro _ ⟨⟩
    simp only [oneLine_append_iff]
    exact ⟨⟨⟨by decide, hts u hu⟩, by decide⟩, t.position.oneLine_text⟩
  | unexpected | number | negated | tooDeep => exact ⟨hmessage, nofun⟩

theorem ParseError.unbroken_end (x : Expected) (p : Position) :
    (unexpectedEnd x p).diagnostic.Unbroken := by
  refine ⟨?_, nofun⟩
  change OneLine ("expected " ++ x.text ++ ", found end of input")
  simp only [oneLine_append_iff]
  exact ⟨⟨by decide, x.oneLine_text⟩, by decide⟩

end OneLine

section Pointing

/-- The line shown with the diagnostic is that of the place between `before` and `rest`, and
the caret stands under the first character of `rest`, or right behind the line at the end of
the text. The blanks in front of the caret are as many as the characters before the place. -/
structure Diagnostic.PointsAt (d : Diagnostic) (source : String) (before rest : List Char) :
    Prop where
  line : d.sourceLine source = lastLine before ++ firstLine rest
  character : (d.sourceLine source)[d.position.column - 1]? = rest.head?
  length_pad : (d.pad source).length = d.position.column - 1
  pad_blank : ∀ (k : Nat) (c : Char), k < d.position.column - 1 →
    (d.sourceLine source)[k]? = some c →
      (d.pad source)[k]? = some (if c = '\t' then '\t' else ' ')
  gutter : d.gutter.toList = List.replicate (toString d.position.line).length ' '

theorem head?_firstLine {cs : List Char} (h : ∀ c ∈ cs.head?, isBlank c = false) :
    (firstLine cs).head? = cs.head? := by
  cases cs with
  | nil => rfl
  | cons c cs =>
    have hc := h c rfl
    have hends : ¬(c = '\n' ∨ c = '\r' ∧ cs.head? = some '\n') := by
      rintro (rfl | ⟨rfl, -⟩)
      · exact absurd hc (by decide)
      · exact absurd hc (by decide)
    rw [firstLine, if_neg hends]
    rfl

/-- A diagnostic placed in front of what is not blank points there. -/
theorem Diagnostic.pointsAt_of_behind {d : Diagnostic} {source : String} {before rest : List Char}
    (htext : source.toList = before ++ rest) (hp : d.position = .behind before)
    (hrest : ∀ c ∈ rest.head?, isBlank c = false) : d.PointsAt source before rest := by
  have hline : d.sourceLine source = lastLine before ++ firstLine rest := by
    have hhead : rest.head? ≠ some '\n' := by
      intro hn
      exact absurd (hrest _ hn) (by decide)
    rw [sourceLine, htext, hp, ← getD_splitLines_append hhead]
    rfl
  have hcolumn : d.position.column - 1 = (lastLine before).length := by
    rw [hp, column_behind, Nat.add_sub_cancel]
  -- the column is that of the place, so the pad covers what the line has in front of it
  have hpad : d.pad source = (lastLine before).map fun c => if c = '\t' then c else ' ' := by
    rw [pad, hcolumn, hline, List.take_left]
  refine ⟨hline, ?_, ?_, ?_, String.toList_ofList⟩
  · rw [hline, hcolumn, List.getElem?_append_right (Nat.le_refl _), Nat.sub_self,
      ← List.head?_eq_getElem?, head?_firstLine hrest]
  · rw [hpad, hcolumn, List.length_map]
  · intro k c hk hc
    rw [hcolumn] at hk
    rw [hline, List.getElem?_append_left hk] at hc
    rw [hpad, List.getElem?_map, hc, Option.map_some]
    by_cases ht : c = '\t'
    · simp [ht]
    · simp [ht]

end Pointing

namespace SourceError

/-- What the error is about stands in the text at the front of `rest`: the bad character or
lexeme of a lexical error, and of a parse error a token of the text or its end. -/
inductive FoundAt (source : String) : SourceError → List Char → Prop where
  | lexical {e : LexError} {rest : List Char} :
      tokenize source = .error e → Faulty e rest → FoundAt source (.lexical e) rest
  | token {e : ParseError} {ts : List Token} {t : Token} {after : List Char} :
      tokenize source = .ok ts → t ∈ ts → t.position = e.position →
      Lexeme t.kind t.lexeme.toList after →
      FoundAt source (.syntactic e) (t.lexeme.toList ++ after)
  | ending {e : ParseError} {ts : List Token} :
      tokenize source = .ok ts → endAt e.position ∈ ts → FoundAt source (.syntactic e) []

theorem FoundAt.not_blank {source : String} {e : SourceError} {rest : List Char}
    (h : e.FoundAt source rest) : ∀ c ∈ rest.head?, isBlank c = false := by
  cases h with
  | lexical _ hf =>
    cases hf with
    | unexpected _ _ hb _ _ =>
      rintro c ⟨⟩
      simpa [isBlank] using hb
    | badNumber hd _ =>
      obtain ⟨d, ds, rfl, hdigit⟩ := hd.exists_cons
      rintro c ⟨⟩
      exact (not_layout_of_isAlphanum (by simp [Char.isAlphanum, hdigit])).1
    | unterminated =>
      rintro c ⟨⟩
      decide
  | @token _ _ t after _ _ _ hl =>
    have hclear := clear_of_lexeme hl
    cases hall : t.lexeme.toList ++ after with
    | nil => simp
    | cons c cs =>
      rw [hall] at hclear
      rintro _ ⟨⟩
      exact hclear.not_layout.1
  | ending => simp

/-- A token of a text that is cut stands in it, where it says. -/
theorem exists_stands {c : Cutting} {source : String} (hc : c.Cuts source.toList) {t : Token}
    (ht : t ∈ placed (Position.start.after c.front) c.pieces) :
    ∃ before after, source.toList = before ++ (t.lexeme.toList ++ after) ∧
      t.position = .behind before ∧ Lexeme t.kind t.lexeme.toList after := by
  rw [← map_snd_withPrevious none (placed _ _), List.mem_map] at ht
  obtain ⟨x, hx, rfl⟩ := ht
  obtain ⟨before, after, htext, hposition, hl, -⟩ := stands_of_cuts hc x hx
  exact ⟨before, after, htext, hposition, hl⟩

/-- The diagnostic is about the place of the error. -/
theorem diagnostic_position (e : ParseError) : e.diagnostic.position = e.position := by
  cases e <;> rfl

/-- The parser speaks of a token of the text or of its end. -/
theorem foundAt_of_run {c : Cutting} {source : String} (hc : c.Cuts source.toList)
    {limit : Option Nat} {e : ParseError}
    (h : (State.between.run limit (Position.start.after source.toList)
      (placed (Position.start.after c.front) c.pieces)).result = .error e) :
    ∃ before rest, source.toList = before ++ rest ∧ e.diagnostic.position = .behind before ∧
      (syntactic e).FoundAt source rest ∧ e.diagnostic.Unbroken := by
  have htokens := hc.tokenize
  rw [diagnostic_position]
  rcases run_quotes h with ⟨x, rfl⟩ | hquotes
  · refine ⟨source.toList, [], by simp, Position.start_after _, .ending htokens ?_,
      ParseError.unbroken_end x _⟩
    simp [ParseError.position]
  · obtain ⟨t, hmem, hposition⟩ := hquotes.exists_position
    obtain ⟨before, after, htext, hbehind, hl⟩ := exists_stands hc hmem
    have hlines : ∀ t ∈ placed (Position.start.after c.front) c.pieces, OneLine t.lexeme :=
      fun t ht => (lexed_of_mem_placed hc.pieces _ t ht).oneLine
    exact ⟨before, _, htext, hposition ▸ hbehind, .token htokens (by simp [hmem]) hposition hl,
      ParseError.unbroken hquotes hlines⟩

/-- An error of the front end is placed behind the text before what it is about. -/
theorem exists_foundAt {source : String} {e : SourceError} (h : parseSource source = .error e) :
    ∃ before rest, source.toList = before ++ rest ∧ e.diagnostic.position = .behind before ∧
      e.FoundAt source rest ∧ e.diagnostic.Unbroken := by
  cases ht : tokenize source with
  | error e' =>
    obtain rfl : lexical e' = e := by
      rw [parseSource, ht] at h
      exact Except.error.inj h
    obtain ⟨c, rest, htext, -, hfaulty, hposition⟩ := exists_cut_of_tokenize_eq_error ht
    exact ⟨c.text, rest, htext, hposition, .lexical ht hfaulty, LexError.unbroken hfaulty⟩
  | ok ts =>
    obtain ⟨c, hc⟩ := Cutting.exists_cuts ht
    rw [parseSource_of_tokens hc.tokenize (kind_ne_of_mem_placed hc.pieces _)] at h
    cases hrun : (State.between.run (some maxNesting) (Position.start.after source.toList)
        (placed (Position.start.after c.front) c.pieces)).result with
    | ok p => simp [hrun, Except.mapError] at h
    | error e' =>
      obtain rfl : syntactic e' = e := by
        rw [hrun] at h
        exact Except.error.inj h
      exact foundAt_of_run hc hrun

end SourceError

section Rendering

/-- The lines that show the place: a header, and the line of the place with the caret under it. -/
def Diagnostic.caretLines (d : Diagnostic) (file source : String) : List String :=
  [file ++ ":" ++ d.position.text ++ ": error: " ++ d.message,
    d.gutter ++ " |",
    toString d.position.line ++ " | " ++ String.ofList (d.sourceLine source),
    d.gutter ++ " | " ++ String.ofList (d.pad source) ++ "^"]

/-- The line that says where a repeated name stood first. -/
def SourceError.noteLines : SourceError → List String
  | e@(.syntactic (.duplicateName name _ first _)) =>
    [e.diagnostic.gutter ++ " = note: " ++ ("`" ++ name ++ "` was first defined at " ++ first.text)]
  | _ => []

theorem SourceError.renderedLines_diagnostic (e : SourceError) (file source : String) :
    e.diagnostic.renderedLines file source =
      e.diagnostic.caretLines file source ++ e.noteLines := by
  cases e with
  | lexical e => rfl
  | syntactic e => cases e <;> rfl

theorem oneLine_replicate (n : Nat) : OneLine (String.ofList (List.replicate n ' ')) := by
  rw [oneLine_ofList_iff, List.mem_replicate]
  rintro ⟨-, h⟩
  exact absurd h (by decide)

/-- The rendering of such a diagnostic comes on lines of their own. -/
theorem Diagnostic.oneLine_of_mem_renderedLines {d : Diagnostic} {file source : String}
    {before rest : List Char} (hd : d.Unbroken) (hfile : OneLine file)
    (hp : d.PointsAt source before rest) : ∀ l ∈ d.renderedLines file source, OneLine l := by
  have hgutter : OneLine d.gutter := oneLine_replicate _
  have hline : '\n' ∉ d.sourceLine source := by
    rw [hp.line, List.mem_append, not_or]
    exact ⟨not_mem_lastLine before, not_mem_firstLine rest⟩
  have hpad : '\n' ∉ d.pad source := by
    intro h
    obtain ⟨c, hc, hn⟩ := List.mem_map.1 h
    split at hn
    · exact hline (List.mem_of_mem_take (hn ▸ hc))
    · exact absurd hn (by decide)
  intro l hl
  simp only [renderedLines, List.mem_append, List.mem_cons, List.not_mem_nil, or_false,
    List.mem_map, Option.mem_toList] at hl
  rcases hl with (rfl | rfl | rfl | rfl) | ⟨text, htext, rfl⟩
  · simp only [oneLine_append_iff]
    exact ⟨⟨⟨⟨hfile, by decide⟩, d.position.oneLine_text⟩, by decide⟩, hd.message⟩
  · exact oneLine_append_iff.2 ⟨hgutter, by decide⟩
  · simp only [oneLine_append_iff, oneLine_ofList_iff]
    exact ⟨⟨oneLine_toString _, by decide⟩, hline⟩
  · simp only [oneLine_append_iff, oneLine_ofList_iff]
    exact ⟨⟨⟨hgutter, by decide⟩, hpad⟩, by decide⟩
  · simp only [oneLine_append_iff]
    exact ⟨⟨hgutter, by decide⟩, hd.note text htext⟩

/-- A text that is not understood is shown with the caret under what is wrong. The error is
placed behind the text before what it is about: the character or lexeme that the lexer stops
at, a token that the parser stops at, or the end. The line that is shown is the line of that
place. All comes on four lines, and for a repeated name there is one more, with a note. -/
theorem caret_of_parseSource {file source : String} {e : SourceError} (hfile : OneLine file)
    (h : parseSource source = .error e) :
    ∃ before rest, source.toList = before ++ rest ∧ e.diagnostic.position = .behind before ∧
      e.FoundAt source rest ∧ e.diagnostic.PointsAt source before rest ∧
      ∃ lines, e.diagnostic.render file source = String.join (lines.map (· ++ "\n")) ∧
        (∀ l ∈ lines, OneLine l) ∧ lines = e.diagnostic.caretLines file source ++ e.noteLines := by
  obtain ⟨before, rest, htext, hposition, hfound, hlines⟩ := SourceError.exists_foundAt h
  have hpoints := Diagnostic.pointsAt_of_behind htext hposition hfound.not_blank
  exact ⟨before, rest, htext, hposition, hfound, hpoints, _, rfl,
    Diagnostic.oneLine_of_mem_renderedLines hlines hfile hpoints,
    e.renderedLines_diagnostic file source⟩

/-- Lines that end with a carriage return too, and a tab in front of a name that is repeated. -/
def indentedText : String :=
  "module m \x7b // é\r\n\tlet a = 1\r\n\tlet a = 2 \x7d\r\n"

theorem indentedText_caret :
    OneLine "m.jl" ∧
    parseSource indentedText =
      .error (.syntactic (.duplicateName "a" .declaration ⟨2, 6⟩ ⟨3, 6⟩)) ∧
    (∃ before rest, indentedText.toList = before ++ rest ∧
      (⟨3, 6⟩ : Position) = .behind before ∧
      (ParseError.duplicateName "a" .declaration ⟨2, 6⟩ ⟨3, 6⟩).diagnostic.PointsAt
        indentedText before rest) ∧
    (ParseError.duplicateName "a" .declaration ⟨2, 6⟩ ⟨3, 6⟩).diagnostic.render
        "m.jl" indentedText =
      "m.jl:3:6: error: duplicate declaration `a`\n  |\n3 | \tlet a = 2 \x7d\n  | \t    ^\n" ++
        "  = note: `a` was first defined at 2:6\n" := by
  have htokens : tokenize indentedText = .ok
      [⟨.keyword, "module", ⟨1, 1⟩⟩, ⟨.identifier, "m", ⟨1, 8⟩⟩, ⟨.symbol, "\x7b", ⟨1, 10⟩⟩,
        ⟨.keyword, "let", ⟨2, 2⟩⟩, ⟨.identifier, "a", ⟨2, 6⟩⟩, ⟨.symbol, "=", ⟨2, 8⟩⟩,
        ⟨.integer, "1", ⟨2, 10⟩⟩, ⟨.keyword, "let", ⟨3, 2⟩⟩, ⟨.identifier, "a", ⟨3, 6⟩⟩,
        ⟨.symbol, "=", ⟨3, 8⟩⟩, ⟨.integer, "2", ⟨3, 10⟩⟩, ⟨.symbol, "\x7d", ⟨3, 12⟩⟩,
        endAt ⟨4, 1⟩] := by
    decide +kernel
  have herror : parseSource indentedText =
      .error (.syntactic (.duplicateName "a" .declaration ⟨2, 6⟩ ⟨3, 6⟩)) := by
    rw [parseSource, htokens]
    rfl
  have hfile : OneLine "m.jl" := by decide
  obtain ⟨before, rest, htext, hposition, -, hpoints, -⟩ := caret_of_parseSource hfile herror
  exact ⟨hfile, herror, ⟨before, rest, htext, hposition, hpoints⟩, by decide +kernel⟩

end Rendering

end SchemaLang
