import SchemaLang.Numeral.Shortest

/-!
# Writing floating point numbers

Finite doubles are written by their shortest digits, either plainly, and then with
a fraction always, or with an exponent. A `Layout` says which, and how.
-/
namespace SchemaLang.Numeral

/-- What one output format decides about its numbers. -/
structure Layout where
  tie : Tie
  /-- The least order, the power of ten of the first digit, that is written plainly. -/
  leastPlain : Int
  /-- The greatest order that is written plainly. -/
  greatestPlain : Int
  /-- What stands before the digits of a positive exponent. -/
  plus : List Char

namespace Layout

/-- All digits around the dot, at least one on either side. -/
def plain (digits : List Char) (order : Int) : List Char :=
  if order < 0 then '0' :: '.' :: List.replicate (-order - 1).toNat '0' ++ digits
  else
    let width := order.toNat + 1
    let fraction := digits.drop width
    digits.take width ++ List.replicate (width - digits.length) '0' ++
      '.' :: if fraction = [] then ['0'] else fraction

/-- One digit before the dot, which is left out if no digit follows, and the exponent. -/
def withExponent (l : Layout) (digits : List Char) (order : Int) : List Char :=
  let fraction := digits.drop 1
  digits.take 1 ++ (if fraction = [] then [] else '.' :: fraction) ++
    'e' :: (if order < 0 then ['-'] else l.plus) ++ Nat.toDigits 10 order.natAbs

def writeDecimal (l : Layout) (d : Decimal) : List Char :=
  if l.leastPlain ≤ d.order ∧ d.order ≤ l.greatestPlain then plain d.digits d.order
  else l.withExponent d.digits d.order

/-- A finite double. -/
def write (l : Layout) (x : Binary64) : String :=
  String.ofList ((if x.isNegative then ['-'] else []) ++
    l.writeDecimal (shortest l.tie x.rank))

end Layout

end SchemaLang.Numeral
