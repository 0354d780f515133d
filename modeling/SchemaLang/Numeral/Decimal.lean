import SchemaLang.Numeral.Integer

/-!
# Decimal numerals

A decimal is a natural coefficient times a power of ten. A numeral for one has
digits, perhaps a dot among them or at either end, and perhaps an exponent.
-/
namespace SchemaLang.Numeral

/-- The number `coefficient * 10 ^ exponent`. -/
structure Decimal where
  coefficient : Nat
  exponent : Int
  deriving DecidableEq, Repr

/-- The exponent at the end of a numeral, zero if none is written. -/
def exponent? : List Char → Option Int
  | [] => some 0
  | c :: cs => if c = 'e' ∨ c = 'E' then integer? cs else none

/-- The fraction digits and what follows them. -/
def splitFraction : List Char → List Char × List Char
  | '.' :: cs => (cs.takeWhile Char.isDigit, cs.dropWhile Char.isDigit)
  | cs => ([], cs)

/-- An unsigned decimal numeral; a digit is needed on one side of the dot at least. -/
def decimal? (cs : List Char) : Option Decimal :=
  let whole := cs.takeWhile Char.isDigit
  let (fraction, tail) := splitFraction (cs.dropWhile Char.isDigit)
  if whole ++ fraction = [] then none
  else
    (exponent? tail).map fun e => ⟨natural (whole ++ fraction), e - fraction.length⟩

namespace Decimal

/-- The digits of the coefficient without the zeros at its end. -/
def digits (d : Decimal) : List Char :=
  ((Nat.toDigits 10 d.coefficient).reverse.dropWhile (· = '0')).reverse

/-- The power of ten of the first digit. -/
def order (d : Decimal) : Int := (Nat.toDigits 10 d.coefficient).length - 1 + d.exponent

end Decimal

end SchemaLang.Numeral
