/-!
Binary floating-point numbers of 64 bits, held as bit patterns. A finite one is a whole number of
units of 2⁻¹⁰⁷⁴, so every computation here is exact integer arithmetic followed by one rounding to
the nearest pattern, a tie going to the even one. Patterns of one sign are ordered as their values
are, so the pattern without its sign bit, the *index*, is the natural measure of magnitude.
-/

namespace RecordStore

-- every power here is one of whole numbers
attribute [instance (1100), default_instance 20000] instPowNat

/-- A double-precision number, by its bit pattern. -/
structure Double where
  bits : UInt64
  deriving DecidableEq

namespace Double

/-- The number of units of 2⁻¹⁰⁷⁴ that make one. -/
def unitsPerOne : Nat := (2 ^ 179) ^ 6

/-- The index of the infinities: all exponent bits set and no fraction. -/
def infinityIndex : Nat := 2047 * 2 ^ 52

/-- The pattern as a natural number below 2⁶⁴. -/
def word (x : Double) : Nat := x.bits.toNat

/-- The sign bit is set. -/
def isNegative (x : Double) : Bool := decide (2 ^ 63 ≤ x.word)

/-- The pattern without its sign bit. -/
def index (x : Double) : Nat := x.word % 2 ^ 63

def isNaN (x : Double) : Bool := decide (infinityIndex < x.index)

def isInfinite (x : Double) : Bool := x.index == infinityIndex

def isFinite (x : Double) : Bool := decide (x.index < infinityIndex)

def isZero (x : Double) : Bool := x.index == 0

/-- The number with a given sign and index. -/
def ofIndex (negative : Bool) (index : Nat) : Double :=
  ⟨UInt64.ofNat (index + if negative then 2 ^ 63 else 0)⟩

def zero : Double := ofIndex false 0

def nan : Double := ofIndex false (infinityIndex + 2 ^ 51)

def infinity (negative : Bool) : Double := ofIndex negative infinityIndex

/-- The magnitude of an index in units: below 2⁵² the index itself, and from there on a significand
of 53 bits shifted by the exponent. -/
def unitsOfIndex (index : Nat) : Nat :=
  if index < 2 ^ 52 then index
  else (2 ^ 52 + index % 2 ^ 52) * 2 ^ (index / 2 ^ 52 - 1)

/-- The value of a finite number, in units. -/
def units (x : Double) : Int :=
  if x.isNegative then -(unitsOfIndex x.index : Int) else unitsOfIndex x.index

/-- The quotient of two naturals, rounded to the nearest natural, a half to the even one. -/
def roundDiv (num den : Nat) : Nat :=
  let quotient := num / den
  let twice := 2 * (num % den)
  if twice < den then quotient
  else if den < twice then quotient + 1
  else quotient + quotient % 2

/-- The index nearest to `num / den` units, past `infinityIndex` where no finite one is near.
The quotient is rounded on the grid of its own binade; a carry into the next binade is the next
index. -/
def nearestIndex (num den : Nat) : Nat :=
  let shift := (num / den).log2 - 52
  roundDiv num (den * 2 ^ shift) + 2 ^ 52 * shift

/-- The number nearest to `± num / den` units; an infinity when it is too large. -/
def ofUnitsRatio (negative : Bool) (num den : Nat) : Double :=
  ofIndex negative (min (nearestIndex num den) infinityIndex)

/-- The number nearest to `± num / den`. -/
def ofRatio (negative : Bool) (num den : Nat) : Double :=
  ofUnitsRatio negative (unitsPerOne * num) den

/-- The number nearest to an integer, or none when that is an infinity. -/
def ofInt? (n : Int) : Option Double :=
  let x := ofRatio (n < 0) n.natAbs 1
  if x.isInfinite then none else some x

/-- The product of a finite number with the ratio `num / den`, rounded once. -/
def scale (x : Double) (num den : Nat) : Double :=
  ofUnitsRatio x.isNegative (unitsOfIndex x.index * num) den

/-- A whole number, in the sense that its units make ones without rest. -/
def isIntegral (x : Double) : Bool := x.isFinite && x.units % unitsPerOne == 0

/-- The value without its fraction, toward zero. -/
def truncate (x : Double) : Int := x.units.tdiv unitsPerOne

/-- The value is exactly the integer `n`. -/
def equalsInt (x : Double) (n : Int) : Bool := x.isFinite && x.units == n * unitsPerOne

/-- The position of a number that is not NaN among all values: both zeros at 0, and the infinities
at the two ends. -/
def rank (x : Double) : Int := if x.isNegative then -(x.index : Int) else x.index

/-- Equality of values: NaN differs from everything, and the two zeros are equal. -/
def equals (x y : Double) : Bool := !x.isNaN && !y.isNaN && x.rank == y.rank

/-- The number itself, with the negative zero replaced by the positive one. -/
def withoutNegativeZero (x : Double) : Double := if x.isZero then zero else x

end Double
end RecordStore
