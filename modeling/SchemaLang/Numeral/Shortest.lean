import SchemaLang.Numeral.Binary64

/-!
# The shortest decimal that reads back

Of the decimals that round to a given magnitude, the shortest are those with the
fewest digits, and of these the nearest one is taken. For each number of digits only
the two neighbours of the magnitude need a test. Seventeen digits suffice for every
double; `exact` would be the answer otherwise.
-/
namespace SchemaLang.Numeral

/-- Which of two decimals at the same distance is taken. -/
inductive Tie where
  | toEven
  | up
  deriving DecidableEq, Repr

namespace Shortest

/-- The magnitude itself as a decimal: `2 ^ -1074` is `5 ^ 1074 * 10 ^ -1074`. -/
def exact (rank : Nat) : Decimal := ⟨Binary64.units rank * Nat.pow 5 1074, -1074⟩

/-- The magnitude times `10 ^ 340`, as a numerator over `Binary64.unitsInOne`. -/
def numerator (rank : Nat) : Nat := Binary64.units rank * Nat.pow 10 340

/-- The magnitude times `10 ^ 340`, cut to a natural number. It has at least 17 digits
unless it is zero. -/
def scaled (rank : Nat) : Nat := numerator rank / Binary64.unitsInOne

/-- How many digits of `scaled rank` come behind the first `count`. -/
def dropped (rank count : Nat) : Nat := (Nat.toDigits 10 (scaled rank)).length - count

/-- The first `count` digits of `scaled rank`. -/
def leading (rank count : Nat) : Nat := scaled rank / Nat.pow 10 (dropped rank count)

/-- The decimal of the first `count` digits, as many units in the last place higher as `more`. -/
def neighbour (rank count more : Nat) : Decimal :=
  ⟨leading rank count + more, (dropped rank count : Int) - 340⟩

/-- Where the magnitude lies against the middle between its two neighbours. -/
def againstMiddle (rank count : Nat) : Ordering :=
  compare (2 * numerator rank)
    ((2 * leading rank count + 1) * Nat.pow 10 (dropped rank count) * Binary64.unitsInOne)

/-- Whether the upper neighbour is the better one. -/
def prefersUpper (tie : Tie) (rank count : Nat) : Bool :=
  match againstMiddle rank count with
  | .lt => false
  | .gt => true
  | .eq => tie = .up ∨ leading rank count % 2 = 1

/-- Whether the decimal rounds to the magnitude. -/
def readsBack (rank : Nat) (d : Decimal) : Bool := Binary64.rankOfDecimal d = rank

/-- The nearest decimal of `count` digits that reads back, if there is one. -/
def withDigits? (tie : Tie) (rank count : Nat) : Option Decimal :=
  let lower := neighbour rank count 0
  let upper := neighbour rank count 1
  if prefersUpper tie rank count then [upper, lower].find? (readsBack rank)
  else [lower, upper].find? (readsBack rank)

end Shortest

open Shortest in
/-- The shortest decimal that reads back as the magnitude of a finite rank. -/
def shortest (tie : Tie) (rank : Nat) : Decimal :=
  if rank = 0 then ⟨0, 0⟩
  else ((List.range 17).findSome? fun i => withDigits? tie rank (i + 1)).getD (exact rank)

end SchemaLang.Numeral
