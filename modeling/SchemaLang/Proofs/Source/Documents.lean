import SchemaLang.Proofs.Lexer.Elsewhere
import SchemaLang.Proofs.Parser.Elsewhere
import SchemaLang.Proofs.Source.Tokenized

/-!
# Documents one after another

Nothing of a document that denotes a program reaches into the next one: the lexer is at
the front of a line again and the machine between two modules. So the second document is
read as if it stood alone, only further down.
-/
namespace SchemaLang

open Lexical

/-- The same error, elsewhere. -/
def SourceError.mapPositions (f : Position → Position) : SourceError → SourceError
  | lexical e => lexical (e.mapPositions f)
  | syntactic e => syntactic (e.mapPositions f)

theorem keepsNext_down (lines : Nat) : KeepsNext (Position.down lines) := by
  intro p m
  obtain ⟨pl, pc⟩ := p
  obtain ⟨ml, mc⟩ := m
  simp only [Position.down, Position.next, Position.mk.injEq]
  omega

/-- The result when modules were complete before. -/
theorem Reading.result_behind (ms : List Module) (r : Reading) :
    (r.behind ms).result = mapBoth id (fun p => ⟨ms ++ p.modules⟩) r.result := by
  obtain ⟨modules, failure, unread⟩ := r
  cases failure <;> rfl

/-- Behind tokens that spell a program the machine reads on as it began. -/
theorem run_behind_program {limit : Option Nat} {ts : List Token} {p : Program}
    (h : Grammar.Derives ts p) (hfit : ∀ m ∈ p.modules, m.Fits limit) (endPosition : Position)
    (us : List Token) (lines : Nat) :
    (State.between.run limit (endPosition.down lines)
        (ts ++ us.map (Token.mapPositions (.down lines)))).result =
      mapBoth (ParseError.mapPositions (.down lines))
        (fun q => ⟨p.modules ++ (q.mapPositions (.down lines)).modules⟩)
        (State.between.run limit endPosition us).result := by
  have hmove : State.between.run limit (endPosition.down lines)
      (us.map (Token.mapPositions (.down lines))) =
        (State.between.run limit endPosition us).mapPositions (.down lines) :=
    State.run_mapPositions (keepsNext_down lines) limit endPosition .between us
  rw [(reads_modules h hfit).run_append, Reading.result_behind, hmove, Reading.result_mapPositions]
  cases (State.between.run limit endPosition us).result <;> rfl

/-- Documents concatenate: behind a document with a program and a line feed, a second one
means what it means alone, as many lines further down as the first one takes. -/
theorem parseSource_append_line {a : String} {p : Program} (ha : parseSource a = .ok p)
    (b : String) :
    parseSource (a ++ "\n" ++ b) =
      mapBoth (SourceError.mapPositions (.down (a.toList.count '\n' + 1)))
        (fun q => ⟨p.modules ++ (q.mapPositions (.down (a.toList.count '\n' + 1))).modules⟩)
        (parseSource b) := by
  obtain ⟨c, hc⟩ := exists_cuts_of_parseSource ha
  obtain ⟨hderives, hrules⟩ := (parseSource_of_cuts hc p).1 ha
  have hfit : ∀ m ∈ p.modules, m.Fits (some maxNesting) := fits_iff.2 hrules
  have htokens := tokenize_append_line hc b
  cases hb : tokenize b with
  | error e =>
    rw [hb] at htokens
    rw [parseSource, htokens, parseSource, hb]
    rfl
  | ok ts =>
    obtain ⟨d, hd⟩ := Cutting.exists_cuts hb
    obtain rfl := Except.ok.inj (hd.tokenize.symm.trans hb)
    have hsecond := kind_ne_of_mem_placed hd.pieces (Position.start.after d.front)
    rw [hb, mapBoth_ok, List.map_append, ← List.append_assoc] at htokens
    have hall := parseSource_of_tokens htokens (by
      simp only [List.forall_mem_append, List.forall_mem_map]
      exact ⟨kind_ne_of_mem_placed hc.pieces _, hsecond⟩)
    have hrun := run_behind_program hderives hfit
      (Position.start.after b.toList) (placed (Position.start.after d.front) d.pieces)
      (a.toList.count '\n' + 1)
    rw [hall, parseSource_of_tokens hb hsecond]
    refine (congrArg (Except.mapError SourceError.syntactic) hrun).trans ?_
    cases (State.between.run (some maxNesting) (Position.start.after b.toList)
      (placed (Position.start.after d.front) d.pieces)).result <;> rfl

/-- A document that ends within a comment. -/
def commentedText : String := "module a \x7b\x7d // no \x7b"

theorem commentedText_twice : parseSource commentedText = .ok ⟨[⟨⟨"a", ⟨1, 8⟩⟩, []⟩]⟩ ∧
    parseSource (commentedText ++ "\n" ++ commentedText) =
      .ok ⟨[⟨⟨"a", ⟨1, 8⟩⟩, []⟩, ⟨⟨"a", ⟨2, 8⟩⟩, []⟩]⟩ := by
  have htokens : tokenize commentedText = .ok
      [⟨.keyword, "module", ⟨1, 1⟩⟩, ⟨.identifier, "a", ⟨1, 8⟩⟩, ⟨.symbol, "\x7b", ⟨1, 10⟩⟩,
        ⟨.symbol, "\x7d", ⟨1, 11⟩⟩, endAt ⟨1, 20⟩] := by
    decide +kernel
  have h : parseSource commentedText = .ok ⟨[⟨⟨"a", ⟨1, 8⟩⟩, []⟩]⟩ := by
    rw [parseSource, htokens]
    rfl
  refine ⟨h, (parseSource_append_line h commentedText).trans ?_⟩
  rw [h]
  rfl

end SchemaLang
