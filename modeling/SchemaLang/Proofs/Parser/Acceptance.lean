import Mathlib.Data.List.TakeWhile
import SchemaLang.Proofs.Parser.Completeness

/-!
# The parser accepts its grammar

A token list without an end of its own is taken whole; an end of the input as the
last token changes only where the input ends. Of such a list the parser makes the
program that its tokens spell, if that program keeps the rules, and no other.
-/
namespace SchemaLang

open Grammar

/-- The end of the input is nowhere but at the end. -/
def EndsOnly (ts : List Token) : Prop := ∀ t ∈ ts.dropLast, t.kind ≠ .endOfInput

instance (ts : List Token) : Decidable (EndsOnly ts) :=
  inferInstanceAs (Decidable (∀ t ∈ ts.dropLast, t.kind ≠ .endOfInput))

/-- The tokens themselves, the end of the input left out. -/
def withoutEnd (ts : List Token) : List Token := ts.filter (·.kind ≠ .endOfInput)

theorem withoutEnd_of_forall {ts : List Token} (h : ∀ t ∈ ts, t.kind ≠ .endOfInput) :
    withoutEnd ts = ts := by
  rw [withoutEnd, List.filter_eq_self]
  intro t ht
  simpa using h t ht

theorem withoutEnd_append_end {ts : List Token} {e : Token} (h : ∀ t ∈ ts, t.kind ≠ .endOfInput)
    (he : e.kind = .endOfInput) : withoutEnd (ts ++ [e]) = ts := by
  have hts := withoutEnd_of_forall h
  rw [withoutEnd] at hts ⊢
  rw [List.filter_append, hts]
  simp [he]

/-- Without an end of the input nothing is cut off. -/
theorem dropWhile_of_forall {ts : List Token} (h : ∀ t ∈ ts, t.kind ≠ .endOfInput) :
    ts.dropWhile (·.kind ≠ .endOfInput) = [] := by
  rw [List.dropWhile_eq_nil_iff]
  intro t ht
  simpa using h t ht

/-- An end of the input behind all other tokens is cut off alone. -/
theorem dropWhile_append_end {ts : List Token} {e : Token} (h : ∀ t ∈ ts, t.kind ≠ .endOfInput)
    (he : e.kind = .endOfInput) : (ts ++ [e]).dropWhile (·.kind ≠ .endOfInput) = [e] := by
  have hp : ∀ t ∈ ts, decide (t.kind ≠ .endOfInput) = true := by simpa using h
  rw [List.dropWhile_append_of_pos hp]
  simp [he]

theorem ofTokens_of_forall {ts : List Token} (h : ∀ t ∈ ts, t.kind ≠ .endOfInput) :
    Parser.ofTokens ts = .ok ⟨ts, Parser.impliedEnd ts⟩ := by
  simp only [Parser.ofTokens, dropWhile_of_forall h]

theorem ofTokens_append_end {ts : List Token} {e : Token} (h : ∀ t ∈ ts, t.kind ≠ .endOfInput)
    (he : e.kind = .endOfInput) : Parser.ofTokens (ts ++ [e]) = .ok ⟨ts, e.position⟩ := by
  have hp : ∀ t ∈ ts, decide (t.kind ≠ .endOfInput) = true := by simpa using h
  have ht : (ts ++ [e]).takeWhile (·.kind ≠ .endOfInput) = ts := by
    rw [List.takeWhile_append_of_pos hp]
    simp [he]
  simp only [Parser.ofTokens, dropWhile_append_end h he, ht]

/-- A list that a parser takes has no end of the input but its last token, and the parser ends
there or, if it has none, right behind its last lexeme. -/
theorem ofTokens_eq_ok {ts : List Token} {p : Parser} (h : Parser.ofTokens ts = .ok p) :
    (∀ t ∈ p.unread, t.kind ≠ .endOfInput) ∧
      (ts = p.unread ∧ p.endPosition = Parser.impliedEnd ts ∨
        ∃ e, ts = p.unread ++ [e] ∧ e.kind = .endOfInput ∧ p.endPosition = e.position) := by
  have hsplit := List.takeWhile_append_dropWhile (p := (·.kind ≠ .endOfInput)) (l := ts)
  have hfront : ∀ t ∈ ts.takeWhile (·.kind ≠ .endOfInput), t.kind ≠ .endOfInput := by
    intro t ht
    simpa using List.mem_takeWhile_imp ht
  unfold Parser.ofTokens at h
  split at h
  · next hd =>
    obtain rfl := Except.ok.inj h
    rw [hd, List.append_nil] at hsplit
    rw [hsplit] at hfront
    exact ⟨hfront, .inl ⟨rfl, rfl⟩⟩
  · next e hd =>
    obtain rfl := Except.ok.inj h
    have he : e.kind = .endOfInput := by
      have hne := List.head?_dropWhile_not (fun t : Token => t.kind ≠ .endOfInput) ts
      rw [hd] at hne
      simpa using hne
    rw [hd] at hsplit
    exact ⟨hfront, .inr ⟨e, hsplit.symm, he, rfl⟩⟩
  · simp at h

theorem ofTokens_eq_error {ts : List Token} {e : ParseError} (h : Parser.ofTokens ts = .error e) :
    ∃ found p, e = .tokensAfterEnd found p := by
  unfold Parser.ofTokens at h
  split at h
  · simp at h
  · simp at h
  · exact ⟨_, _, (Except.error.inj h).symm⟩

/-- With or without its last token, the list is read as what stands before the end. -/
theorem ofTokens_of_endsOnly {ts : List Token} (h : EndsOnly ts) :
    ∃ p, Parser.ofTokens ts = .ok ⟨withoutEnd ts, p⟩ := by
  rcases List.eq_nil_or_concat ts with rfl | ⟨us, e, rfl⟩
  · exact ⟨.start, rfl⟩
  · have hus : ∀ t ∈ us, t.kind ≠ .endOfInput := by simpa [EndsOnly] using h
    rw [List.concat_eq_append]
    by_cases he : e.kind = .endOfInput
    · refine ⟨e.position, ?_⟩
      rw [ofTokens_append_end hus he, withoutEnd_append_end hus he]
    · have hall : ∀ t ∈ us ++ [e], t.kind ≠ .endOfInput :=
        List.forall_mem_append.2 ⟨hus, by simpa using he⟩
      refine ⟨Parser.impliedEnd (us ++ [e]), ?_⟩
      rw [ofTokens_of_forall hall, withoutEnd_of_forall hall]

theorem parseWithin_of_ofTokens {limit : Option Nat} {ts us : List Token} {p : Position}
    (h : Parser.ofTokens ts = .ok ⟨us, p⟩) :
    parseWithin limit ts = (State.between.run limit p us).result := by
  rw [parseWithin, h]
  rfl

/-- The rules of a whole program, one module at a time. -/
theorem fits_iff {n : Nat} {p : Program} :
    (∀ m ∈ p.modules, m.Fits (some n)) ↔ p.Distinct ∧ p.NestedWithin n := by
  constructor
  · intro h
    exact ⟨fun m hm => (h m hm).1, fun m hm => (h m hm).2 n rfl⟩
  · rintro ⟨hd, hn⟩ m hm
    refine ⟨hd m hm, ?_⟩
    rintro _ ⟨⟩
    exact hn m hm

theorem fits_none_iff {p : Program} : (∀ m ∈ p.modules, m.Fits none) ↔ p.Distinct := by
  simp [Module.Fits, Program.Distinct]

/-- A run ends well exactly when all it reads are modules of the grammar. -/
theorem run_result_eq_ok_iff {limit : Option Nat} {e : Position} {ts : List Token} {p : Program} :
    (State.between.run limit e ts).result = .ok p ↔
      Derives ts p ∧ ∀ m ∈ p.modules, m.Fits limit := by
  constructor
  · intro h
    obtain ⟨pre, ms, u, hr, hcases⟩ := State.run_cases limit e .between ts
    rcases hcases with ⟨rfl, hrun⟩ | ⟨t, post, -, ⟨e', -, hrun⟩ | ⟨-, hrun⟩⟩
    · rw [hrun] at h
      obtain ⟨us, vs, rfl, hms, hfit, hu, -⟩ := hr.sound
      cases u with
      | between =>
        cases hu
        have hp : p = ⟨ms⟩ := (Except.ok.inj h).symm
        rw [hp, List.append_nil]
        exact ⟨hms, hfit⟩
      | _ => simp [State.atEnd, Reading.result] at h
    · simp [hrun, Reading.result] at h
    · simp [hrun, Reading.result] at h
  · intro h
    obtain ⟨hd, hf⟩ := h
    rw [(reads_modules hd hf).run_of_between e]
    rfl

/-- The tokens of `module m { const x = { k: -5, } }`. -/
def negatedTokens : List Token :=
  [⟨.keyword, "module", ⟨1, 1⟩⟩, ⟨.identifier, "m", ⟨1, 8⟩⟩, ⟨.symbol, "\x7b", ⟨1, 10⟩⟩,
    ⟨.keyword, "const", ⟨1, 12⟩⟩, ⟨.identifier, "x", ⟨1, 18⟩⟩, ⟨.symbol, "=", ⟨1, 20⟩⟩,
    ⟨.symbol, "\x7b", ⟨1, 22⟩⟩, ⟨.identifier, "k", ⟨1, 24⟩⟩, ⟨.symbol, ":", ⟨1, 25⟩⟩,
    ⟨.symbol, "-", ⟨1, 27⟩⟩, ⟨.integer, "5", ⟨1, 28⟩⟩, ⟨.symbol, ",", ⟨1, 29⟩⟩,
    ⟨.symbol, "\x7d", ⟨1, 31⟩⟩, ⟨.symbol, "\x7d", ⟨1, 33⟩⟩, ⟨.endOfInput, "", ⟨1, 34⟩⟩]

def negatedProgram : Program :=
  ⟨[⟨⟨"m", ⟨1, 8⟩⟩,
    [.binding .constant ⟨"x", ⟨1, 18⟩⟩ (.object [("k", .leaf (.integer (-5)))])]⟩]⟩

end SchemaLang
