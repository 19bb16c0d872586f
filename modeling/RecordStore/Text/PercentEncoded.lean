import RecordStore.Text.Utf8

/-!
Text as one component of a path. Letters, digits and four marks stand for themselves; every other
byte of the UTF-8 form is written as a percent sign and two digits, the slash and the percent sign
among them.
-/

namespace RecordStore
namespace PercentEncoded

/-- A byte that stands for itself: an ASCII letter or digit, or one of `_`, `.`, `-` and `~`. -/
def isPlain (b : UInt8) : Bool :=
  let n := b.toNat
  (48 ≤ n && n ≤ 57) || (65 ≤ n && n ≤ 90) || (97 ≤ n && n ≤ 122) ||
    n == 95 || n == 46 || n == 45 || n == 126

def hexDigit (n : Nat) : Char := Char.ofNat (if n < 10 then 48 + n else 55 + n)

def encodeByte (b : UInt8) : List Char :=
  if isPlain b then [Char.ofNat b.toNat]
  else ['%', hexDigit (b.toNat / 16), hexDigit (b.toNat % 16)]

def encode (s : String) : List Char := (Utf8.encode s).flatMap encodeByte

end PercentEncoded
end RecordStore
