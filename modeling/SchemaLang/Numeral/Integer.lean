/-!
# Integer numerals

Decimal digits, with one sign at most in front, read as a 64-bit integer. A
value out of range is refused, never wrapped. Digits are ASCII.
-/
namespace SchemaLang.Numeral

/-- Whether a minus sign stands in front, and what follows the sign, if any. -/
def splitSign : List Char → Bool × List Char
  | '-' :: cs => (true, cs)
  | '+' :: cs => (false, cs)
  | cs => (false, cs)

/-- The number that the digits denote. -/
def natural (digits : List Char) : Nat := Nat.ofDigitChars 10 digits 0

/-- At least one digit and nothing else. -/
def natural? (cs : List Char) : Option Nat :=
  if cs ≠ [] ∧ cs.all Char.isDigit then some (natural cs) else none

/-- The number with its sign. -/
def signed (negative : Bool) (n : Nat) : Int := if negative then -n else n

/-- Digits with an optional sign. -/
def integer? (cs : List Char) : Option Int :=
  let (negative, digits) := splitSign cs
  (natural? digits).map (signed negative)

/-- The integer as a 64-bit one, if it is in range. -/
def narrow? (v : Int) : Option Int64 :=
  if Int64.minValue.toInt ≤ v ∧ v ≤ Int64.maxValue.toInt then some (Int64.ofInt v) else none

/-- A numeral of a 64-bit integer. -/
def int64? (text : String) : Option Int64 := (integer? text.toList).bind narrow?

end SchemaLang.Numeral
