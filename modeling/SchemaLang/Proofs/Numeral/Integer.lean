import Mathlib.Algebra.Group.Int.Defs
import Mathlib.Algebra.Group.Nat.Defs
import SchemaLang.Numeral.Integer
import SchemaLang.Proofs.Lexer.Lexical

/-!
# Digits and the integers they denote

A text of digits, with a minus sign in front or without one, is the numeral of the
number that the digits denote, if that is in range. The decimal digits of a number
denote it, so every 64-bit integer has a numeral.
-/
namespace SchemaLang.Numeral

open Lexical

/-- A minus sign in front of a text. -/
theorem minus_append (cs : List Char) : "-" ++ String.ofList cs = String.ofList ('-' :: cs) :=
  (String.ofList_append : String.ofList (['-'] ++ cs) = _).symm

/-- No sign stands in front of a digit. -/
theorem splitSign_of_isDigit {d : Char} (hd : d.isDigit) (cs : List Char) :
    splitSign (d :: cs) = (false, d :: cs) := by
  rw [splitSign]
  · rintro cs ⟨⟩
    exact absurd hd (by decide)
  · rintro cs ⟨⟩
    exact absurd hd (by decide)

theorem splitSign_of_isDigits {ds : List Char} (h : IsDigits ds) : splitSign ds = (false, ds) := by
  obtain ⟨d, ds, rfl, hdigit⟩ := h.exists_cons
  exact splitSign_of_isDigit hdigit ds

theorem natural?_of_isDigits {ds : List Char} (h : IsDigits ds) :
    natural? ds = some (natural ds) := by
  obtain ⟨hne, hd⟩ := h
  simp [natural?, hne, List.all_eq_true.2 hd]

/-- Digits without a sign, and with either of them. -/
theorem integer?_of_isDigits {ds : List Char} (h : IsDigits ds) :
    integer? ds = some (natural ds : Int) := by
  simp only [integer?, splitSign_of_isDigits h, natural?_of_isDigits h, Option.map_some]
  rfl

theorem integer?_minus_of_isDigits {ds : List Char} (h : IsDigits ds) :
    integer? ('-' :: ds) = some (-natural ds : Int) := by
  simp only [integer?, splitSign, natural?_of_isDigits h, Option.map_some]
  rfl

theorem integer?_plus_of_isDigits {ds : List Char} (h : IsDigits ds) :
    integer? ('+' :: ds) = some (natural ds : Int) := by
  simp only [integer?, splitSign, natural?_of_isDigits h, Option.map_some]
  rfl

/-- The numeral of digits without a sign. -/
theorem int64?_of_isDigits {ds : List Char} (h : IsDigits ds) :
    int64? (String.ofList ds) = narrow? (natural ds) := by
  rw [int64?, String.toList_ofList, integer?_of_isDigits h, Option.bind_some]

/-- The numeral of digits with a minus sign, which counts for the range too. -/
theorem int64?_negated_of_isDigits {ds : List Char} (h : IsDigits ds) :
    int64? (String.ofList ('-' :: ds)) = narrow? (-natural ds) := by
  rw [int64?, String.toList_ofList, integer?_minus_of_isDigits h, Option.bind_some]

theorem isDigits_toDigits (n : Nat) : IsDigits (Nat.toDigits 10 n) :=
  ⟨Nat.toDigits_ne_nil, fun _ hd => Nat.isDigit_of_mem_toDigits (by decide) (by decide) hd⟩

theorem natural_toDigits (n : Nat) : natural (Nat.toDigits 10 n) = n :=
  Nat.ofDigitChars_ten_toDigits

/-- The text of an integer. -/
theorem toList_toString (v : Int) : (toString v).toList =
    if v < 0 then '-' :: Nat.toDigits 10 v.natAbs else Nat.toDigits 10 v.natAbs := by
  cases v with
  | ofNat n =>
    have hpos : ¬ Int.ofNat n < 0 := Int.not_lt.2 (Int.natCast_nonneg n)
    rw [if_neg hpos]
    exact String.toList_ofList
  | negSucc n =>
    rw [if_pos (Int.negSucc_lt_zero n)]
    change ("-" ++ String.ofList (Nat.toDigits 10 (n + 1))).toList = _
    rw [minus_append, String.toList_ofList]
    rfl

/-- The text of an integer reads as that integer. -/
theorem integer?_toString (v : Int) : integer? (toString v).toList = some v := by
  have hdigits := isDigits_toDigits v.natAbs
  rw [toList_toString]
  by_cases hv : v < 0
  · have habs : -(v.natAbs : Int) = v := by omega
    rw [if_pos hv, integer?_minus_of_isDigits hdigits, natural_toDigits, habs]
  · have habs : (v.natAbs : Int) = v := by omega
    rw [if_neg hv, integer?_of_isDigits hdigits, natural_toDigits, habs]

theorem narrow?_toInt (n : Int64) : narrow? n.toInt = some n := by
  rw [narrow?, if_pos ⟨n.minValue_le_toInt, n.toInt_le⟩, Int64.ofInt_toInt]

theorem toInt_of_narrow? {v : Int} {n : Int64} (h : narrow? v = some n) : n.toInt = v := by
  unfold narrow? at h
  split at h
  · next hr =>
    obtain rfl := Option.some.inj h
    exact Int64.toInt_ofInt_of_le hr.1 (Int.lt_add_one_of_le hr.2)
  · exact nomatch h

/-- What is refused is out of range. -/
theorem narrow?_eq_none {v : Int} (h : narrow? v = none) : v < -2 ^ 63 ∨ 2 ^ 63 ≤ v := by
  have hmin : Int64.minValue.toInt = -2 ^ 63 := rfl
  have hmax : Int64.maxValue.toInt = 2 ^ 63 - 1 := rfl
  have hrange : ¬ (Int64.minValue.toInt ≤ v ∧ v ≤ Int64.maxValue.toInt) := by
    intro hr
    rw [narrow?, if_pos hr] at h
    exact nomatch h
  omega

/-- What is out of range is refused. -/
theorem narrow?_of_outside {v : Int} (h : v < -2 ^ 63 ∨ 2 ^ 63 ≤ v) : narrow? v = none := by
  cases hn : narrow? v with
  | none => rfl
  | some n =>
    have hlow := n.le_toInt
    have hhigh := n.toInt_lt
    rw [toInt_of_narrow? hn] at hlow hhigh
    omega

/-- Every 64-bit integer has a numeral, the least one included. -/
theorem int64?_toDigits (n : Int64) :
    int64? (String.ofList (if n.toInt < 0 then '-' :: Nat.toDigits 10 n.toInt.natAbs
      else Nat.toDigits 10 n.toInt.natAbs)) = some n := by
  by_cases hn : n.toInt < 0
  · have habs : -(n.toInt.natAbs : Int) = n.toInt := by omega
    rw [if_pos hn, int64?_negated_of_isDigits (isDigits_toDigits _), natural_toDigits, habs,
      narrow?_toInt]
  · have habs : (n.toInt.natAbs : Int) = n.toInt := by omega
    rw [if_neg hn, int64?_of_isDigits (isDigits_toDigits _), natural_toDigits, habs, narrow?_toInt]

end SchemaLang.Numeral
