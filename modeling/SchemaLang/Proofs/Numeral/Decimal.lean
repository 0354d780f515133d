import SchemaLang.Numeral.Binary64
import SchemaLang.Proofs.Lexer.Fronts
import SchemaLang.Proofs.Numeral.Integer

/-!
# Digits with a fraction are a numeral

Digits, a dot and digits denote a magnitude, and a minus sign in front of them turns
the sign and nothing else.
-/
namespace SchemaLang.Numeral

open Lexical

variable {ds fs : List Char}

/-- The digits on both sides of the dot make up the coefficient. -/
theorem decimal?_of_dot {tail : List Char} (hd : IsDigits ds) (hf : ∀ d ∈ fs, d.isDigit)
    (ht : ∀ c ∈ tail.head?, c.isDigit = false) :
    decimal? (ds ++ '.' :: (fs ++ tail)) =
      (exponent? tail).map fun e => ⟨natural (ds ++ fs), e - fs.length⟩ := by
  have hdot : ∀ c ∈ ('.' :: (fs ++ tail)).head?, c.isDigit = false := by
    rintro c ⟨⟩
    decide
  have hfraction : splitFraction ('.' :: (fs ++ tail)) = (fs, tail) := by
    simp only [splitFraction, takeWhile_append_of_head hf ht, dropWhile_append_of_head hf ht]
  have hne : ds ++ fs ≠ [] := by simp [hd.1]
  simp only [decimal?, takeWhile_append_of_head hd.2 hdot, dropWhile_append_of_head hd.2 hdot,
    hfraction, hne, if_false]

theorem decimal?_of_fraction (hd : IsDigits ds) (hf : IsDigits fs) :
    decimal? (ds ++ '.' :: fs) = some ⟨natural (ds ++ fs), -fs.length⟩ := by
  have hend : ∀ c ∈ ([] : List Char).head?, c.isDigit = false := by simp
  have hdot := decimal?_of_dot hd hf.2 hend
  simpa only [List.append_nil, exponent?, Option.map_some, Int.zero_sub] using hdot

namespace Binary64

/-- No word for a magnitude has a dot in it. -/
theorem rank?_of_fraction (hd : IsDigits ds) (hf : IsDigits fs) :
    rank? (ds ++ '.' :: fs) = some (rankOfDecimal ⟨natural (ds ++ fs), -fs.length⟩) := by
  have hword : ∀ word : String, '.' ∉ word.toList →
      String.ofList ((ds ++ '.' :: fs).map Char.toLower) ≠ word := by
    rintro _ h rfl
    have hdot : Char.toLower '.' = '.' := by decide
    exact h (by simp [hdot])
  have hinf := hword "inf" (by decide)
  have hinfinity := hword "infinity" (by decide)
  have hnan := hword "nan" (by decide)
  simp only [rank?, hinf, hinfinity, hnan, or_self, if_false, decimal?_of_fraction hd hf,
    Option.map_some]

/-- A numeral of digits with a fraction, and the same with a minus sign in front. -/
theorem ofText?_of_fraction (hd : IsDigits ds) (hf : IsDigits fs) :
    ∃ rank, ofText? (String.ofList (ds ++ '.' :: fs)) = some (ofRank false rank) ∧
      ofText? ("-" ++ String.ofList (ds ++ '.' :: fs)) = some (ofRank true rank) := by
  have hplain : splitSign (ds ++ '.' :: fs) = (false, ds ++ '.' :: fs) := by
    obtain ⟨d, ds, rfl, hdigit⟩ := hd.exists_cons
    exact splitSign_of_isDigit hdigit _
  have hnegated : splitSign ('-' :: (ds ++ '.' :: fs)) = (true, ds ++ '.' :: fs) := rfl
  refine ⟨rankOfDecimal ⟨natural (ds ++ fs), -fs.length⟩, ?_, ?_⟩
  · simp only [ofText?, String.toList_ofList, hplain, rank?_of_fraction hd hf, Option.map_some]
  · simp only [minus_append, ofText?, String.toList_ofList, hnegated, rank?_of_fraction hd hf,
      Option.map_some]

end Binary64

end SchemaLang.Numeral
