import RecordStore.Number.Double

/-!
Decimal text of doubles. A number is written with the fewest digits that read back as the same
number, and among those with the ones nearest to its value; reading rounds the exact decimal value
once.
-/

namespace RecordStore

/-- A nonnegative decimal number `digits · 10 ^ exponent`. -/
structure Decimal where
  digits : Nat
  exponent : Int
  deriving DecidableEq

namespace Decimal

/-- The digits of a natural number in base ten, most significant first. -/
def digitsOf (n : Nat) : List Char := Nat.toDigits 10 n

/-- The value of a row of decimal digits. -/
def ofDigits (digits : List Char) : Nat :=
  digits.foldl (fun n c => n * 10 + (c.toNat - '0'.toNat)) 0

/-- The number of digits before the decimal point; zero or negative for a number that starts with
zeros after the point. -/
def pointPosition (d : Decimal) : Int := (digitsOf d.digits).length + d.exponent

/-- The nearest double with the given sign. Exponents far outside the range of doubles are decided
without computing the power of ten. -/
def toDouble (negative : Bool) (d : Decimal) : Double :=
  if d.digits = 0 ∨ d.pointPosition < -330 then Double.ofIndex negative 0
  else if 310 < d.pointPosition then Double.infinity negative
  else if 0 ≤ d.exponent then Double.ofRatio negative (d.digits * 10 ^ d.exponent.toNat) 1
  else Double.ofRatio negative d.digits (10 ^ (-d.exponent).toNat)

/-- The number of zeros between the decimal point and the first other digit of `num / den`, which is
positive and below one; `fuel` bounds the search. -/
def leadingZeros (den : Nat) : Nat → Nat → Nat
  | 0, _ => 0
  | fuel + 1, num => if den ≤ num * 10 then 0 else leadingZeros den fuel (num * 10) + 1

/-- The point position of the positive ratio `num / den`. -/
def pointPositionOfRatio (num den : Nat) : Int :=
  if den ≤ num then (digitsOf (num / den)).length else -(leadingZeros den 400 num : Int)

/-- The better of the two decimals of `count` digits on either side of a positive finite number, if
one of them reads back. Of two that do the nearer one is taken, and at a tie the one with an even
last digit. -/
def neighbour? (x : Double) (point : Int) (count : Nat) : Option Decimal :=
  let exponent := point - count
  let num := Double.unitsOfIndex x.index * 10 ^ (-exponent).toNat
  let den := Double.unitsPerOne * 10 ^ exponent.toNat
  let low : Decimal := ⟨num / den, exponent⟩
  let high : Decimal := ⟨num / den + 1, exponent⟩
  let readsBack (d : Decimal) : Bool := d.toDouble false == Double.ofIndex false x.index
  match readsBack low, readsBack high with
  | false, false => none
  | true, false => some low
  | false, true => some high
  | true, true =>
    let twice := 2 * (num % den)
    if twice < den ∨ (twice = den ∧ low.digits % 2 = 0) then some low else some high

/-- The exact decimal value of a finite number. -/
def exact (x : Double) : Decimal :=
  ⟨Double.unitsOfIndex x.index * 5 ^ 1074, -1074⟩

/-- The shortest decimal that reads back as the magnitude of a finite number. -/
def shortest (x : Double) : Decimal :=
  if x.isZero then ⟨0, 0⟩
  else
    let point := pointPositionOfRatio (Double.unitsOfIndex x.index) Double.unitsPerOne
    ((List.range 17).findSome? fun n => neighbour? x point (n + 1)).getD (exact x)

/-- A decimal as text: positional while the point lies at most four places before the first digit
and at most sixteen after it, with `.0` on whole numbers, and else with an exponent of two digits
or more. -/
def text (d : Decimal) : List Char :=
  let all := digitsOf d.digits
  let point := all.length + d.exponent
  let kept := (all.reverse.dropWhile (· == '0')).reverse
  let digits := if kept.isEmpty then ['0'] else kept
  if -4 < point ∧ point ≤ 16 then
    if point ≤ 0 then '0' :: '.' :: (List.replicate (-point).toNat '0' ++ digits)
    else
      let whole := digits.take point.toNat
      let fraction := digits.drop point.toNat
      whole ++ List.replicate (point.toNat - whole.length) '0' ++ '.' ::
        (if fraction.isEmpty then ['0'] else fraction)
  else
    let exponent := point - 1
    let places := digitsOf exponent.natAbs
    let mantissa := match digits with
      | [] => []
      | [c] => [c]
      | c :: rest => c :: '.' :: rest
    mantissa ++ 'e' :: (if exponent < 0 then '-' else '+') ::
      (List.replicate (2 - places.length) '0' ++ places)

end Decimal

/-- The text of a finite number. -/
def Double.decimalText (x : Double) : List Char :=
  let magnitude := (Decimal.shortest x).text
  if x.isNegative then '-' :: magnitude else magnitude

end RecordStore
