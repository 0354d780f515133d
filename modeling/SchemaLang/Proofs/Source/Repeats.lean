import SchemaLang.Proofs.Lexer.Standing
import SchemaLang.Proofs.Parser.Repeats

/-!
# The repeated name that is reported

Which name a token list repeats first is seen from its blocks alone, and this is the
name that a parse error is about.
-/
namespace SchemaLang

open Grammar

variable {ts : List Token}

/-- The end of the input is in no block. -/
theorem blocksOf_withoutEnd (h : EndsOnly ts) : blocksOf (withoutEnd ts) = blocksOf ts := by
  rcases List.eq_nil_or_concat ts with rfl | ⟨us, e, rfl⟩
  · rfl
  · have hus : ∀ t ∈ us, t.kind ≠ .endOfInput := by simpa [EndsOnly] using h
    rw [List.concat_eq_append]
    by_cases he : e.kind = .endOfInput
    · have hnone : Outline.closed (Outline.start.after us) [e] = [] := by
        simp [Outline.closed, Outline.closes, Token.isSymbol, he]
      rw [withoutEnd_append_end hus he, blocksOf, blocksOf, Outline.closed_append, hnone,
        List.append_nil]
    · have hall : ∀ t ∈ us ++ [e], t.kind ≠ .endOfInput :=
        List.forall_mem_append.2 ⟨hus, by simpa using he⟩
      rw [withoutEnd_of_forall hall]

/-- A repeated name that parsing fails with is that of the first block to repeat one. -/
theorem parse_reportsFirst {e : ParseError} (h : parse ts = .error e) (he : e.IsDuplicate) :
    ReportsFirst ts e := by
  cases hp : Parser.ofTokens ts with
  | error e' =>
    obtain ⟨found, p, rfl⟩ := ofTokens_eq_error hp
    obtain rfl : ParseError.tokensAfterEnd found p = e := by
      rw [parse, parseWithin, hp] at h
      exact Except.error.inj h
    simp [ParseError.IsDuplicate] at he
  | ok p =>
    rw [parse, parseWithin_of_ofTokens hp] at h
    have hreports := run_reportsFirst h he
    rcases (ofTokens_eq_ok hp).2 with ⟨hts, -⟩ | ⟨eof, hts, -, -⟩
    · rwa [hts]
    · rw [hts]
      exact hreports.append [eof]

/-- Both objects repeat a name, and the inner one is the first to close. -/
def nestedRepeatsText : String :=
  "module m \x7b let x = \x7b k: \x7b j: 1, i: 2, j: 3 \x7d, k: 4 \x7d \x7d"

end SchemaLang
