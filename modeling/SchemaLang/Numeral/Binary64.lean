import SchemaLang.Numeral.Decimal

/-!
# Floating point numbers

A `Binary64` is the 64 bits of a double precision number: a sign, and a rank
that numbers the magnitudes upwards from zero. The magnitude of a finite rank is
a natural number of units of `2 ^ -1074`, the least positive one, so that
rounding is integer arithmetic: `nearestRank` takes a quotient of naturals to the
nearest magnitude, an exact half to the even one.
-/
namespace SchemaLang.Numeral

structure Binary64 where
  bits : UInt64
  deriving DecidableEq, Repr

namespace Binary64

/-- How many ranks there are to a power of two. -/
def binade : Nat := 0x10000000000000

/-- The sign bit alone. -/
def signBit : Nat := 0x8000000000000000

/-- How many units there are in one. -/
def unitsInOne : Nat := Nat.pow 2 1074

/-- The rank of the infinite magnitude; those above it are not numbers. -/
def infiniteRank : Nat := 2047 * binade

/-- The rank of the usual magnitude that is not a number. -/
def nanRank : Nat := infiniteRank + binade / 2

def ofRank (negative : Bool) (rank : Nat) : Binary64 :=
  ⟨UInt64.ofNat ((if negative then signBit else 0) + rank)⟩

def isNegative (x : Binary64) : Bool := signBit ≤ x.bits.toNat

def rank (x : Binary64) : Nat := x.bits.toNat % signBit

def isFinite (x : Binary64) : Bool := x.rank < infiniteRank

def isNaN (x : Binary64) : Bool := infiniteRank < x.rank

def isZero (x : Binary64) : Bool := x.rank = 0

/-- Numeric equality: the zeros are equal, and what is not a number equals nothing. -/
def equals (x y : Binary64) : Bool :=
  !x.isNaN && !y.isNaN && (x.bits == y.bits || x.isZero && y.isZero)

/-- The number of units in the magnitude of a finite rank. Within a binade the magnitudes
are equally far apart, and twice as far as in the one below. -/
def units (rank : Nat) : Nat :=
  let scale := rank / binade - 1
  (rank - scale * binade) <<< scale

/-- The rank nearest to `n / d`, infinite when that is past the largest finite one. Between
two neighbours the even rank is taken. -/
def nearestRank (n d : Nat) : Nat :=
  let scaled := n * unitsInOne
  let scale := (scaled / d).log2 - 52
  let unit := d <<< scale
  let below := scaled / unit
  let beyond := 2 * (scaled % unit)
  let nearest := if beyond < unit ∨ beyond = unit ∧ below % 2 = 0 then below else below + 1
  min (scale * binade + nearest) infiniteRank

/-- The rank nearest to a decimal. Exponents far out of range are settled at once: a
coefficient `c` has at most `log2 c + 1` digits. -/
def rankOfDecimal (d : Decimal) : Nat :=
  if d.coefficient = 0 then 0
  else if 400 < d.exponent then infiniteRank
  else if d.exponent < -(401 + d.coefficient.log2) then 0
  else if 0 ≤ d.exponent then nearestRank (d.coefficient * Nat.pow 10 d.exponent.toNat) 1
  else nearestRank d.coefficient (Nat.pow 10 (-d.exponent).toNat)

/-- A numeral for a magnitude: a decimal, or a word for an infinite or undefined one in
letters of either case. -/
def rank? (cs : List Char) : Option Nat :=
  let word := String.ofList (cs.map Char.toLower)
  if word = "inf" ∨ word = "infinity" then some infiniteRank
  else if word = "nan" then some nanRank
  else (decimal? cs).map rankOfDecimal

/-- A numeral for a double: a sign, if any, and a magnitude. -/
def ofText? (text : String) : Option Binary64 :=
  let (negative, magnitude) := splitSign text.toList
  (rank? magnitude).map (ofRank negative)

end Binary64

end SchemaLang.Numeral
