/-!
Quoted literals of text and of bytes, as messages show them. Single quotes are used unless the
content has one and no double quote; control characters are written by their number.
-/

namespace RecordStore
namespace Quoted

/-- The mark that a literal is enclosed in. -/
def mark (hasSingle hasDouble : Bool) : Char := if hasSingle && !hasDouble then '"' else '\''

def hexDigit (n : Nat) : Char := Char.ofNat (if n < 10 then 48 + n else 87 + n)

/-- A number below 256 as `\x` and two digits. -/
def byteEscape (n : Nat) : List Char := ['\\', 'x', hexDigit (n / 16), hexDigit (n % 16)]

/-- A character inside quotes. -/
def escape (mark : Char) (c : Char) : List Char :=
  if c = mark ∨ c = '\\' then ['\\', c]
  else if c = '\n' then ['\\', 'n']
  else if c = '\r' then ['\\', 'r']
  else if c = '\t' then ['\\', 't']
  else if c.toNat < 32 ∨ c.toNat = 127 then byteEscape c.toNat
  else [c]

def text (cs : List Char) : List Char :=
  let mark := mark (cs.contains '\'') (cs.contains '"')
  mark :: cs.flatMap (escape mark) ++ [mark]

/-- A literal of bytes: the printable ASCII characters stand for themselves. -/
def bytes (bs : List UInt8) : List Char :=
  let mark := mark (bs.contains 39) (bs.contains 34)
  let byte (b : UInt8) : List Char :=
    if 128 ≤ b then byteEscape b.toNat else escape mark (Char.ofNat b.toNat)
  'b' :: mark :: bs.flatMap byte ++ [mark]

end Quoted
end RecordStore
