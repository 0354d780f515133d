import Mathlib.Data.List.DropRight
import SchemaLang.Numeral.Layout
import SchemaLang.Proofs.Numeral.Decimal
import SchemaLang.Proofs.Numeral.Rounding

/-!
# What is written reads back

`Written` says what the numerals that are written look like: digits, and then a fraction
or an exponent or both. A layout writes the value of a decimal by such a numeral, in one
of two forms, and the digits that a form leaves out or adds are zeros. As a finite
double is written by a decimal that reads back, its text determines it.
-/
namespace SchemaLang.Numeral

open Lexical

section Numerals

/-- A decimal numeral with a fraction or an exponent, and the decimal that it denotes. -/
inductive Written : List Char → Decimal → Prop where
  | plain {ws fs : List Char} : IsDigits ws → IsDigits fs →
      Written (ws ++ '.' :: fs) ⟨natural (ws ++ fs), -fs.length⟩
  | scientific {ws fs es : List Char} {e : Int} :
      IsDigits ws → (∀ d ∈ fs, d.isDigit) → integer? es = some e →
      (∀ c ∈ es, c.isDigit ∨ c ∈ ['-', '+']) →
      Written (ws ++ (if fs = [] then [] else '.' :: fs) ++ 'e' :: es)
        ⟨natural (ws ++ fs), e - fs.length⟩

/-- The characters of numerals. -/
def isNumeralChar (c : Char) : Bool := c.isDigit || c ∈ ['-', '+', '.', 'e']

variable {cs : List Char} {d : Decimal}

theorem isNumeralChar_of_isDigit {c : Char} (h : c.isDigit) : isNumeralChar c := by
  simp [isNumeralChar, h]

theorem Written.isNumeralChar (h : Written cs d) : ∀ c ∈ cs, isNumeralChar c := by
  cases h with
  | plain hw hf =>
    simp only [List.forall_mem_append, List.forall_mem_cons]
    exact ⟨fun c hc => isNumeralChar_of_isDigit (hw.2 c hc), by decide,
      fun c hc => isNumeralChar_of_isDigit (hf.2 c hc)⟩
  | @scientific ws fs es e hw hf _ hes =>
    have hfraction : ∀ c ∈ (if fs = [] then [] else '.' :: fs), Numeral.isNumeralChar c := by
      split
      · simp
      · rw [List.forall_mem_cons]
        exact ⟨by decide, fun c hc => isNumeralChar_of_isDigit (hf c hc)⟩
    have hexponent : ∀ c ∈ es, Numeral.isNumeralChar c := by
      intro c hc
      rcases hes c hc with hdigit | hsign
      · exact isNumeralChar_of_isDigit hdigit
      · rcases List.mem_pair.1 hsign with rfl | rfl <;> decide
    simp only [List.forall_mem_append, List.forall_mem_cons]
    exact ⟨⟨fun c hc => isNumeralChar_of_isDigit (hw.2 c hc), hfraction⟩, by decide, hexponent⟩

theorem Written.of_eq (h : Written cs d) {c : Nat} {e : Int} (hc : d.coefficient = c)
    (he : d.exponent = e) : Written cs ⟨c, e⟩ := by
  subst hc he
  exact h

/-- What tells such a numeral from an integer. -/
theorem Written.marked (h : Written cs d) : '.' ∈ cs ∨ 'e' ∈ cs := by
  cases h with
  | plain => simp
  | scientific => simp

theorem Written.exists_cons (h : Written cs d) : ∃ c tail, cs = c :: tail ∧ c.isDigit := by
  cases h with
  | plain hw _ =>
    obtain ⟨c, tail, rfl, hc⟩ := hw.exists_cons
    exact ⟨c, _, rfl, hc⟩
  | scientific hw _ _ _ =>
    obtain ⟨c, tail, rfl, hc⟩ := hw.exists_cons
    exact ⟨c, _, rfl, hc⟩

theorem Written.decimal?_eq (h : Written cs d) : decimal? cs = some d := by
  cases h with
  | plain hw hf => exact decimal?_of_fraction hw hf
  | @scientific ws fs es e hw hf he _ =>
    have hletter : exponent? ('e' :: es) = some e := by simp [exponent?, he]
    have hends : ∀ c ∈ ('e' :: es).head?, c.isDigit = false := by
      rintro c ⟨⟩
      decide
    by_cases hfs : fs = []
    · have hsplit : splitFraction ('e' :: es) = ([], 'e' :: es) := rfl
      simp only [hfs, if_true, List.append_nil, decimal?, takeWhile_append_of_head hw.2 hends,
        dropWhile_append_of_head hw.2 hends, hsplit, hw.1, if_false, hletter, Option.map_some]
    · have hdot := decimal?_of_dot hw hf hends
      simpa only [hfs, if_false, List.append_assoc, List.cons_append, hletter, Option.map_some]
        using hdot

end Numerals

section Digits

/-- A zero behind digits makes the number ten times as large. -/
theorem natural_append_zeros (ds : List Char) (k : Nat) :
    natural (ds ++ List.replicate k '0') = natural ds * 10 ^ k := by
  induction k with
  | zero => simp
  | succ k ih =>
    rw [List.replicate_succ', ← List.append_assoc, natural, Nat.ofDigitChars_append]
    change 10 * natural (ds ++ List.replicate k '0') + 0 = _
    rw [ih, Nat.pow_succ', Nat.mul_left_comm]
    rfl

/-- Zeros in front of digits do not count. -/
theorem natural_zeros_append (ds : List Char) (k : Nat) :
    natural (List.replicate k '0' ++ ds) = natural ds := by
  induction k with
  | zero => simp
  | succ k ih => exact ih

theorem isDigit_of_mem_replicate {k : Nat} : ∀ c ∈ List.replicate k '0', c.isDigit := by
  intro c hc
  rw [(List.mem_replicate.1 hc).2]
  decide

/-- The digits of a decimal, with the zeros that they leave out. -/
theorem Decimal.exists_zeros (d : Decimal) :
    ∃ k, Nat.toDigits 10 d.coefficient = d.digits ++ List.replicate k '0' := by
  have hzeros : ∀ c ∈ (Nat.toDigits 10 d.coefficient).rtakeWhile (· = '0'), c = '0' :=
    fun c hc => by simpa using List.mem_rtakeWhile_imp hc
  refine ⟨((Nat.toDigits 10 d.coefficient).rtakeWhile (· = '0')).length, ?_⟩
  rw [← List.eq_replicate_of_mem hzeros]
  exact List.rdropWhile_append_rtakeWhile.symm

theorem Decimal.isDigit_of_mem_digits (d : Decimal) : ∀ c ∈ d.digits, c.isDigit := by
  obtain ⟨k, hk⟩ := d.exists_zeros
  intro c hc
  exact (isDigits_toDigits d.coefficient).2 c (by simp [hk, hc])

end Digits

namespace Layout

section

variable {ds : List Char} {order : Int}

theorem isDigits_zero : IsDigits ['0'] := ⟨by simp, by simp⟩

/-- Below one, zeros stand between the dot and the digits. -/
theorem written_below (hd : ∀ c ∈ ds, c.isDigit) (hne : ds ≠ []) (ho : order < 0) :
    Written (plain ds order) ⟨natural ds, order + 1 - ds.length⟩ := by
  have hfraction : IsDigits (List.replicate (-order - 1).toNat '0' ++ ds) := by
    refine ⟨by simp [hne], ?_⟩
    rw [List.forall_mem_append]
    exact ⟨isDigit_of_mem_replicate, hd⟩
  rw [plain, if_pos ho]
  refine (Written.plain isDigits_zero hfraction).of_eq ?_ ?_
  · exact natural_zeros_append ds ((-order - 1).toNat + 1)
  · simp only [List.length_append, List.length_replicate]
    omega

/-- Without digits for a fraction, zeros stand up to the dot and one behind it. -/
theorem written_whole (hd : ∀ c ∈ ds, c.isDigit) (ho : 0 ≤ order)
    (hlength : ds.length ≤ order.toNat + 1) :
    Written (plain ds order) ⟨natural ds * 10 ^ (order.toNat + 1 - ds.length + 1), -1⟩ := by
  have hfraction : ds.drop (order.toNat + 1) = [] := List.drop_eq_nil_iff.2 hlength
  have hwhole : IsDigits (ds ++ List.replicate (order.toNat + 1 - ds.length) '0') := by
    constructor
    · intro hnil
      have hsum := congrArg List.length hnil
      simp only [List.length_append, List.length_replicate, List.length_nil] at hsum
      omega
    · rw [List.forall_mem_append]
      exact ⟨hd, isDigit_of_mem_replicate⟩
  rw [plain, if_neg (Int.not_lt.2 ho)]
  dsimp only
  rw [if_pos hfraction, List.take_of_length_le hlength]
  refine (Written.plain hwhole isDigits_zero).of_eq ?_ rfl
  rw [List.append_assoc, ← List.replicate_succ', natural_append_zeros]

/-- With digits enough the dot stands among them. -/
theorem written_among (hd : ∀ c ∈ ds, c.isDigit) (ho : 0 ≤ order)
    (hlength : order.toNat + 1 < ds.length) :
    Written (plain ds order) ⟨natural ds, order + 1 - ds.length⟩ := by
  have hfraction : ds.drop (order.toNat + 1) ≠ [] := by
    rw [Ne, List.drop_eq_nil_iff]
    omega
  have hnone : order.toNat + 1 - ds.length = 0 := by omega
  have hwhole : IsDigits (ds.take (order.toNat + 1)) := by
    refine ⟨?_, fun c hc => hd c (List.mem_of_mem_take hc)⟩
    intro hnil
    have hsum := congrArg List.length hnil
    simp only [List.length_take, List.length_nil] at hsum
    omega
  have hrest : IsDigits (ds.drop (order.toNat + 1)) :=
    ⟨hfraction, fun c hc => hd c (List.mem_of_mem_drop hc)⟩
  rw [plain, if_neg (Int.not_lt.2 ho)]
  dsimp only
  rw [if_neg hfraction, hnone, List.replicate_zero, List.append_nil]
  refine (Written.plain hwhole hrest).of_eq ?_ ?_
  · rw [List.take_append_drop]
  · simp only [List.length_drop]
    omega

/-- The plain form has the value of the digits, where `j` zeros may have been added. -/
theorem written_plain (hd : ∀ c ∈ ds, c.isDigit) (h : ds ≠ [] ∨ 0 ≤ order) :
    ∃ j : Nat, Written (plain ds order) ⟨natural ds * 10 ^ j, order + 1 - ds.length - j⟩ := by
  have hnone : natural ds = natural ds * 10 ^ 0 := by rw [Nat.pow_zero, Nat.mul_one]
  by_cases ho : order < 0
  · have hne : ds ≠ [] := h.resolve_right (by omega)
    exact ⟨0, (written_below hd hne ho).of_eq hnone (Int.sub_zero _).symm⟩
  · by_cases hlength : ds.length ≤ order.toNat + 1
    · have hexponent : (-1 : Int) = order + 1 - ds.length -
          (order.toNat + 1 - ds.length + 1 : Nat) := by omega
      exact ⟨_, (written_whole hd (Int.not_lt.1 ho) hlength).of_eq rfl hexponent⟩
    · exact ⟨0, (written_among hd (Int.not_lt.1 ho) (Nat.not_le.1 hlength)).of_eq hnone
        (Int.sub_zero _).symm⟩

/-- A layout whose exponents read back, and that writes zero plainly. -/
structure Sound (l : Layout) : Prop where
  plus : l.plus = [] ∨ l.plus = ['+']
  leastPlain : l.leastPlain ≤ 0
  greatestPlain : 0 ≤ l.greatestPlain

variable {l : Layout}

theorem integer?_exponent (hl : l.Sound) (order : Int) :
    integer? ((if order < 0 then ['-'] else l.plus) ++ Nat.toDigits 10 order.natAbs) =
      some order := by
  have hdigits := isDigits_toDigits order.natAbs
  by_cases horder : order < 0
  · have hneg : -(order.natAbs : Int) = order := by omega
    rw [if_pos horder, List.singleton_append, integer?_minus_of_isDigits hdigits,
      natural_toDigits, hneg]
  · have hpos : (order.natAbs : Int) = order := by omega
    rw [if_neg horder]
    rcases hl.plus with hplus | hplus
    · rw [hplus, List.nil_append, integer?_of_isDigits hdigits, natural_toDigits, hpos]
    · rw [hplus, List.singleton_append, integer?_plus_of_isDigits hdigits, natural_toDigits, hpos]

theorem written_withExponent (hl : l.Sound) (hd : ∀ c ∈ ds, c.isDigit) (hne : ds ≠ []) :
    Written (l.withExponent ds order) ⟨natural ds, order + 1 - ds.length⟩ := by
  have hlength : 0 < ds.length := List.length_pos_iff.2 hne
  have hwhole : IsDigits (ds.take 1) := by
    refine ⟨?_, fun c hc => hd c (List.mem_of_mem_take hc)⟩
    simp [hne]
  have hrest : ∀ c ∈ ds.drop 1, c.isDigit := fun c hc => hd c (List.mem_of_mem_drop hc)
  have hsign : ∀ c ∈ (if order < 0 then ['-'] else l.plus) ++ Nat.toDigits 10 order.natAbs,
      c.isDigit ∨ c ∈ ['-', '+'] := by
    intro c hc
    rcases List.mem_append.1 hc with hc | hc
    · right
      split at hc
      · simp_all
      · rcases hl.plus with hplus | hplus <;> simp_all
    · exact .inl ((isDigits_toDigits _).2 c hc)
  have hwritten := Written.scientific hwhole hrest (integer?_exponent hl order) hsign
  rw [withExponent]
  simp only [List.append_assoc, List.cons_append] at hwritten ⊢
  refine hwritten.of_eq ?_ ?_
  · rw [List.take_append_drop]
  · simp only [List.length_drop]
    omega

end

/-- What a layout writes for a decimal has its digits, where zeros may have been added. -/
theorem exists_written {l : Layout} (hl : l.Sound) {d : Decimal}
    (h : d.digits ≠ [] ∨ d.order = 0) :
    ∃ j : Nat, Written (l.writeDecimal d)
      ⟨natural d.digits * 10 ^ j, d.order + 1 - d.digits.length - j⟩ := by
  rw [writeDecimal]
  split
  · exact written_plain d.isDigit_of_mem_digits (h.imp_right fun ho => Int.le_of_eq ho.symm)
  · next hrange =>
    have hne : d.digits ≠ [] := by
      refine h.resolve_right fun ho => hrange ?_
      rw [ho]
      exact ⟨hl.leastPlain, hl.greatestPlain⟩
    refine ⟨0, (written_withExponent hl d.isDigit_of_mem_digits hne).of_eq ?_ ?_⟩
    · rw [Nat.pow_zero, Nat.mul_one]
    · exact (Int.sub_zero _).symm

/-- Such a decimal rounds to the same rank. -/
theorem rankOfDecimal_digits (d : Decimal) (j : Nat) :
    Binary64.rankOfDecimal ⟨natural d.digits * 10 ^ j, d.order + 1 - d.digits.length - j⟩ =
      Binary64.rankOfDecimal d := by
  obtain ⟨k, hk⟩ := d.exists_zeros
  have hcoefficient : d.coefficient = natural d.digits * 10 ^ k := by
    rw [← natural_append_zeros, ← hk, natural_toDigits]
  have hlength := congrArg List.length hk
  rw [List.length_append, List.length_replicate] at hlength
  have hexponent : d.order + 1 - d.digits.length - j + j = d.exponent + k := by
    rw [Decimal.order]
    omega
  calc Binary64.rankOfDecimal ⟨natural d.digits * 10 ^ j, d.order + 1 - d.digits.length - j⟩
      = Binary64.rankOfDecimal ⟨natural d.digits, d.exponent + k⟩ := by
        rw [Binary64.rankOfDecimal_shift, hexponent]
    _ = Binary64.rankOfDecimal ⟨d.coefficient, d.exponent⟩ := by
        rw [hcoefficient, Binary64.rankOfDecimal_shift]

/-- The shortest decimal of a finite rank has digits, or is written plainly. -/
theorem digits_shortest {rank : Nat} (tie : Tie) (h : rank < Binary64.infiniteRank) :
    (shortest tie rank).digits ≠ [] ∨ (shortest tie rank).order = 0 := by
  by_cases hzero : rank = 0
  · right
    rw [shortest, if_pos hzero]
    rfl
  · left
    intro hnil
    -- without digits the decimal is zero, and zero does not read back as another rank
    have hback := rankOfDecimal_shortest tie h
    rw [← rankOfDecimal_digits _ 0, hnil] at hback
    exact hzero (hback.symm.trans rfl)

/-- The text of a magnitude is the numeral of a decimal that rounds to it. -/
theorem exists_written_shortest {l : Layout} (hl : l.Sound) {rank : Nat}
    (h : rank < Binary64.infiniteRank) :
    ∃ d, Written (l.writeDecimal (shortest l.tie rank)) d ∧ Binary64.rankOfDecimal d = rank := by
  obtain ⟨j, hj⟩ := exists_written hl (digits_shortest l.tie h)
  exact ⟨_, hj, (rankOfDecimal_digits _ j).trans (rankOfDecimal_shortest l.tie h)⟩

end Layout

namespace Binary64

theorem toLower_of_isDigit {c : Char} (h : c.isDigit) : c.toLower = c := by
  have hlast : c.val ≤ '9'.val := of_decide_eq_true (Bool.and_eq_true_iff.1 h).2
  have hcapital : ¬ 'A'.val ≤ c.val := fun hle => absurd (UInt32.le_trans hle hlast) (by decide)
  exact dif_neg fun hc => hcapital hc.1

/-- No word for a magnitude begins with a digit. -/
theorem rank?_of_written {cs : List Char} {d : Decimal} (h : Written cs d) :
    rank? cs = some (rankOfDecimal d) := by
  have hword : ∀ word : String, (∀ c ∈ word.toList.head?, c.isDigit = false) →
      String.ofList (cs.map Char.toLower) ≠ word := by
    rintro _ hfront rfl
    obtain ⟨c, tail, rfl, hc⟩ := h.exists_cons
    have hdigit := hfront c.toLower (by simp)
    rw [toLower_of_isDigit hc, hc] at hdigit
    exact nomatch hdigit
  have hinf := hword "inf" (by simp)
  have hinfinity := hword "infinity" (by simp)
  have hnan := hword "nan" (by simp)
  simp only [rank?, hinf, hinfinity, hnan, or_self, if_false, h.decimal?_eq, Option.map_some]

/-- Sign and rank make up a double. -/
theorem ofRank_rank (x : Binary64) : ofRank x.isNegative x.rank = x := by
  obtain ⟨bits⟩ := x
  have hlt := bits.toNat_lt
  have hsum : (if signBit ≤ bits.toNat then signBit else 0) + bits.toNat % signBit =
      bits.toNat := by
    by_cases hsign : signBit ≤ bits.toNat
    · rw [if_pos hsign]
      unfold signBit at hsign ⊢
      omega
    · rw [if_neg hsign]
      unfold signBit at hsign ⊢
      omega
  simp only [ofRank, isNegative, rank, decide_eq_true_eq, hsum, UInt64.ofNat_toNat]

end Binary64

/-- The text of a finite double reads as that double. -/
theorem Layout.ofText?_write {l : Layout} (hl : l.Sound) {x : Binary64} (hx : x.isFinite) :
    Binary64.ofText? (l.write x) = some x := by
  obtain ⟨d, hwritten, hrank⟩ := l.exists_written_shortest hl (of_decide_eq_true hx)
  have hread := Binary64.rank?_of_written hwritten
  rw [hrank] at hread
  rw [write, Binary64.ofText?, String.toList_ofList]
  cases hsign : x.isNegative with
  | true =>
    have hsplit : splitSign ('-' :: l.writeDecimal (shortest l.tie x.rank)) =
        (true, l.writeDecimal (shortest l.tie x.rank)) := rfl
    simp only [if_true, List.cons_append, List.nil_append, hsplit, hread, Option.map_some]
    rw [← hsign, Binary64.ofRank_rank]
  | false =>
    obtain ⟨c, tail, hcs, hc⟩ := hwritten.exists_cons
    have hsplit : splitSign (l.writeDecimal (shortest l.tie x.rank)) =
        (false, l.writeDecimal (shortest l.tie x.rank)) := by
      rw [hcs]
      exact splitSign_of_isDigit hc tail
    simp only [Bool.false_eq_true, if_false, List.nil_append, hsplit, hread, Option.map_some]
    rw [← hsign, Binary64.ofRank_rank]

/-- The characters of a finite double's text, and what tells it from an integer's. -/
theorem Layout.isNumeralChar_of_mem_write {l : Layout} (hl : l.Sound) {x : Binary64}
    (hx : x.isFinite) : (∀ c ∈ (l.write x).toList, isNumeralChar c) ∧
      ('.' ∈ (l.write x).toList ∨ 'e' ∈ (l.write x).toList) := by
  obtain ⟨d, hwritten, -⟩ := l.exists_written_shortest hl (of_decide_eq_true hx)
  rw [write, String.toList_ofList]
  constructor
  · rw [List.forall_mem_append]
    refine ⟨?_, hwritten.isNumeralChar⟩
    split
    · simp [isNumeralChar]
    · simp
  · exact hwritten.marked.imp (List.mem_append_right _) (List.mem_append_right _)

end SchemaLang.Numeral
