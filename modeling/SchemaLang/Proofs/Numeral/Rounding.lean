import Mathlib.Algebra.Group.Nat.Defs
import SchemaLang.Numeral.Shortest

/-!
# Rounding is a function of the value

`nearestRank` sees no more of a quotient than its value, and the limits that
`rankOfDecimal` sets to exponents change no result. So decimals of the same value round
to the same rank. A magnitude rounds to itself, hence the shortest decimal reads back.
-/
namespace SchemaLang.Numeral

namespace Binary64

/-- The exponent stands behind a name, so that the power is not evaluated. -/
theorem unitsInOne_eq {n : Nat} (h : n = 1074) : unitsInOne = 2 ^ n := by
  unfold unitsInOne
  generalize 1074 = k at h
  rw [h]
  rfl

theorem unitsInOne_pos : 0 < unitsInOne := by
  obtain ⟨n, hn⟩ : ∃ n, unitsInOne = 2 ^ n := ⟨_, unitsInOne_eq rfl⟩
  rw [hn]
  exact Nat.two_pow_pos n

section Quotients

variable {n d : Nat}

/-- A factor in numerator and denominator does not count. -/
theorem nearestRank_mul_right (n d : Nat) {k : Nat} (hk : 0 < k) :
    nearestRank (n * k) (d * k) = nearestRank n d := by
  have hscaled : n * k * unitsInOne = n * unitsInOne * k := Nat.mul_right_comm n k unitsInOne
  have hunit (scale : Nat) : (d * k) <<< scale = (d <<< scale) * k := by
    rw [Nat.shiftLeft_eq, Nat.shiftLeft_eq, Nat.mul_right_comm]
  simp only [nearestRank, hscaled, Nat.mul_div_mul_right _ _ hk, hunit, Nat.mul_mod_mul_right,
    ← Nat.mul_assoc, Nat.mul_lt_mul_right hk, Nat.mul_left_inj (Nat.ne_of_gt hk)]

/-- Equal quotients round in the same way. -/
theorem nearestRank_congr {m e : Nat} (hd : 0 < d) (he : 0 < e) (h : n * e = m * d) :
    nearestRank n d = nearestRank m e := by
  rw [← nearestRank_mul_right n d he, h, Nat.mul_comm d e, nearestRank_mul_right m e hd]

theorem nearestRank_zero (hd : 0 < d) : nearestRank 0 d = 0 := by
  simp [nearestRank, hd]

/-- Less than half a unit rounds to zero. -/
theorem nearestRank_of_lt (h : 2 * (n * unitsInOne) < d) : nearestRank n d = 0 := by
  have hlt : n * unitsInOne < d := by omega
  have hdiv : n * unitsInOne / d = 0 := Nat.div_eq_of_lt hlt
  have hmod : n * unitsInOne % d = n * unitsInOne := Nat.mod_eq_of_lt hlt
  simp [nearestRank, hdiv, hmod, h]

/-- What is past the binades of the finite ranks rounds to the infinite one. -/
theorem nearestRank_of_le {k : Nat} (hk : 1025 ≤ k) (hd : 0 < d) (h : 2 ^ k * d ≤ n) :
    nearestRank n d = infiniteRank := by
  obtain ⟨u, hu⟩ : ∃ u, u = 1074 := ⟨_, rfl⟩
  have hdiv : 2 ^ (k + u) ≤ n * unitsInOne / d := by
    rw [Nat.le_div_iff_mul_le hd, unitsInOne_eq hu]
    calc 2 ^ (k + u) * d = 2 ^ k * d * 2 ^ u := by rw [Nat.pow_add, Nat.mul_right_comm]
      _ ≤ n * 2 ^ u := Nat.mul_le_mul_right _ h
  have hlog : k + u ≤ (n * unitsInOne / d).log2 := by
    rw [Nat.le_log2 (Nat.ne_of_gt (Nat.lt_of_lt_of_le (Nat.two_pow_pos _) hdiv))]
    exact hdiv
  have hscale : infiniteRank ≤ ((n * unitsInOne / d).log2 - 52) * binade :=
    Nat.mul_le_mul_right binade (by omega)
  exact Nat.min_eq_right (Nat.le_add_right_of_le hscale)

end Quotients

section Decimals

/-- Ten is more than eight, which is enough wherever powers of ten meet powers of two. -/
theorem two_pow_le_ten_pow {a b : Nat} (h : a ≤ 3 * b) : 2 ^ a ≤ 10 ^ b :=
  calc 2 ^ a ≤ 2 ^ (3 * b) := Nat.pow_le_pow_right (by decide) h
    _ = 8 ^ b := Nat.pow_mul 2 3 b
    _ ≤ 10 ^ b := Nat.pow_le_pow_left (by decide) b

/-- The decimal `c * 10 ^ e` rounds as the quotient that it is, whatever its exponent. -/
theorem rankOfDecimal_eq (c : Nat) (e : Int) :
    rankOfDecimal ⟨c, e⟩ = nearestRank (c * 10 ^ e.toNat) (10 ^ (-e).toNat) := by
  have hten (k : Nat) : 0 < 10 ^ k := Nat.pow_pos (by decide)
  rw [rankOfDecimal]
  dsimp only
  by_cases hc : c = 0
  · rw [if_pos hc, hc, Nat.zero_mul, nearestRank_zero (hten _)]
  rw [if_neg hc]
  -- past the limits the quotient is past all ranks, or less than half a unit
  by_cases hlarge : 400 < e
  · have hnone : (-e).toNat = 0 := by omega
    obtain ⟨k, hk⟩ : ∃ k, k = 1025 := ⟨_, rfl⟩
    rw [if_pos hlarge, hnone, nearestRank_of_le (Nat.le_of_eq hk.symm) (hten 0)]
    rw [Nat.pow_zero, Nat.mul_one]
    exact Nat.le_trans (two_pow_le_ten_pow (by omega))
      (Nat.le_mul_of_pos_left _ (Nat.pos_of_ne_zero hc))
  rw [if_neg hlarge]
  by_cases hsmall : e < -(401 + c.log2)
  · have hnone : e.toNat = 0 := by omega
    obtain ⟨u, hu⟩ : ∃ u, u = 1074 := ⟨_, rfl⟩
    rw [if_pos hsmall, hnone, Nat.pow_zero, Nat.mul_one, nearestRank_of_lt]
    calc 2 * (c * unitsInOne) < 2 * (2 ^ (c.log2 + 1) * 2 ^ u) := by
          rw [unitsInOne_eq hu]
          exact Nat.mul_lt_mul_of_pos_left
            (Nat.mul_lt_mul_of_pos_right Nat.lt_log2_self (Nat.two_pow_pos u)) (by decide)
      _ = 2 ^ (1 + (c.log2 + 1 + u)) := by
          rw [Nat.pow_add 2 1, Nat.pow_add 2 (c.log2 + 1), Nat.pow_one]
      _ ≤ 10 ^ (-e).toNat := two_pow_le_ten_pow (by omega)
  rw [if_neg hsmall]
  by_cases he : 0 ≤ e
  · have hnone : (-e).toNat = 0 := by omega
    rw [if_pos he, hnone, Nat.pow_zero, Nat.pow_eq]
  · have hnone : e.toNat = 0 := by omega
    rw [if_neg he, hnone, Nat.pow_zero, Nat.mul_one, Nat.pow_eq]

/-- Zeros at the end of the coefficient may be counted by the exponent. -/
theorem rankOfDecimal_shift (c k : Nat) (e : Int) :
    rankOfDecimal ⟨c * 10 ^ k, e⟩ = rankOfDecimal ⟨c, e + k⟩ := by
  rw [rankOfDecimal_eq, rankOfDecimal_eq]
  apply nearestRank_congr (Nat.pow_pos (by decide)) (Nat.pow_pos (by decide))
  rw [Nat.mul_assoc, Nat.mul_assoc, Nat.mul_assoc, ← Nat.pow_add, ← Nat.pow_add, ← Nat.pow_add]
  congr 2
  omega

end Decimals

section Magnitudes

/-- The power of two that the units of a magnitude are a multiple of. -/
def scale (rank : Nat) : Nat := rank / binade - 1

/-- What the power of two is taken times. -/
def significand (rank : Nat) : Nat := rank - scale rank * binade

theorem units_eq (rank : Nat) : units rank = significand rank * 2 ^ scale rank :=
  Nat.shiftLeft_eq _ _

theorem scale_add_significand (rank : Nat) : scale rank * binade + significand rank = rank := by
  have hle : scale rank * binade ≤ rank :=
    Nat.le_trans (Nat.mul_le_mul_right _ (Nat.sub_le _ _)) (Nat.div_mul_le_self _ _)
  exact Nat.add_sub_cancel' hle

/-- The significand has 53 binary digits, or fewer where the scale is zero. -/
theorem significand_lt (rank : Nat) : significand rank < 2 ^ 53 := by
  simp only [significand, scale, binade]
  omega

theorem le_significand {rank : Nat} (h : scale rank ≠ 0) : 2 ^ 52 ≤ significand rank := by
  simp only [significand, scale, binade] at h ⊢
  omega

/-- The scale is the one that rounding chooses. -/
theorem log2_units (rank : Nat) : (units rank).log2 - 52 = scale rank := by
  by_cases hscale : scale rank = 0
  · have hlog : (units rank).log2 < 53 := by
      rw [units_eq, hscale, Nat.pow_zero, Nat.mul_one]
      by_cases hzero : significand rank = 0
      · simp [hzero]
      · exact (Nat.log2_lt hzero).2 (significand_lt rank)
    omega
  · have hle := le_significand hscale
    have hlog : (units rank).log2 = 52 + scale rank := by
      have hpos : 0 < significand rank * 2 ^ scale rank :=
        Nat.mul_pos (Nat.lt_of_lt_of_le (by decide) hle) (Nat.two_pow_pos _)
      rw [units_eq, Nat.log2_eq_iff (Nat.ne_of_gt hpos)]
      constructor
      · rw [Nat.pow_add]
        exact Nat.mul_le_mul_right _ hle
      · rw [Nat.add_right_comm, Nat.pow_add]
        exact Nat.mul_lt_mul_of_pos_right (significand_lt rank) (Nat.two_pow_pos _)
    omega

/-- A magnitude rounds to itself. -/
theorem nearestRank_units {rank : Nat} (h : rank < infiniteRank) :
    nearestRank (units rank) unitsInOne = rank := by
  have hscale : (units rank * unitsInOne / unitsInOne).log2 - 52 = scale rank := by
    rw [Nat.mul_div_cancel _ unitsInOne_pos, log2_units]
  have hunit : 0 < unitsInOne <<< scale rank := by
    rw [Nat.shiftLeft_eq]
    exact Nat.mul_pos unitsInOne_pos (Nat.two_pow_pos _)
  have hscaled : units rank * unitsInOne = significand rank * (unitsInOne <<< scale rank) := by
    rw [units_eq, Nat.shiftLeft_eq, Nat.mul_right_comm, Nat.mul_assoc]
  have hbelow : units rank * unitsInOne / unitsInOne <<< scale rank = significand rank := by
    rw [hscaled, Nat.mul_div_cancel _ hunit]
  have hbeyond : 2 * (units rank * unitsInOne % unitsInOne <<< scale rank) = 0 := by
    rw [hscaled, Nat.mul_mod_left]
  simp only [nearestRank, hscale, hbelow, hbeyond, hunit, true_or, if_true, scale_add_significand]
  exact Nat.min_eq_left (Nat.le_of_lt h)

end Magnitudes

end Binary64

namespace Shortest

open Binary64

/-- The magnitude as a decimal has its value. -/
theorem rankOfDecimal_exact {rank : Nat} (h : rank < infiniteRank) :
    rankOfDecimal (exact rank) = rank := by
  obtain ⟨u, hu⟩ : ∃ u, u = 1074 := ⟨_, rfl⟩
  have hnegative : (-1074 : Int) = -u := by omega
  have hexact : exact rank = ⟨units rank * 5 ^ u, -u⟩ := by
    unfold exact
    rw [hnegative]
    generalize 1074 = k at hu
    rw [hu]
    rfl
  have hten : (10 : Nat) ^ u = 5 ^ u * 2 ^ u := Nat.mul_pow 5 2 u
  have hexponent : (-(u : Int)).toNat = 0 ∧ (-(-(u : Int))).toNat = u := by omega
  rw [hexact, rankOfDecimal_eq, hexponent.1, hexponent.2, Nat.pow_zero, Nat.mul_one]
  calc nearestRank (units rank * 5 ^ u) (10 ^ u) = nearestRank (units rank) unitsInOne := by
        apply nearestRank_congr (Nat.pow_pos (by decide)) unitsInOne_pos
        rw [unitsInOne_eq hu, hten, Nat.mul_assoc]
    _ = rank := nearestRank_units h

theorem readsBack_of_withDigits? {tie : Tie} {rank count : Nat} {d : Decimal}
    (h : withDigits? tie rank count = some d) : rankOfDecimal d = rank := by
  have hback : readsBack rank d = true := by
    unfold withDigits? at h
    dsimp only at h
    split at h <;> exact List.find?_some h
  exact of_decide_eq_true hback

end Shortest

/-- The shortest decimal reads back. -/
theorem rankOfDecimal_shortest {rank : Nat} (tie : Tie) (h : rank < Binary64.infiniteRank) :
    Binary64.rankOfDecimal (shortest tie rank) = rank := by
  rw [shortest]
  by_cases hzero : rank = 0
  · rw [if_pos hzero, hzero]
    rfl
  rw [if_neg hzero]
  cases hfound : (List.range 17).findSome? fun i => Shortest.withDigits? tie rank (i + 1) with
  | none => exact Shortest.rankOfDecimal_exact h
  | some d =>
    obtain ⟨i, -, hi⟩ := List.exists_of_findSome?_eq_some hfound
    exact Shortest.readsBack_of_withDigits? hi

end SchemaLang.Numeral
