/-!
Text as UTF-8 bytes. Encoding follows the characters one by one; decoding reads a character off the
first byte and its continuations and accepts it only if it is encoded by just these bytes, so no
overlong form, surrogate or number beyond the last character is taken.
-/

namespace RecordStore
namespace Utf8

def encodeChars (cs : List Char) : List UInt8 := cs.flatMap String.utf8EncodeChar

def encode (s : String) : List UInt8 := encodeChars s.toList

/-- The number of bytes of a character that starts with `b`. -/
def sizeOf (b : UInt8) : Nat :=
  if b < 0x80 then 1 else if b < 0xe0 then 2 else if b < 0xf0 then 3 else 4

/-- The bits of the first byte that belong to the character's number. -/
def leadBits (b : UInt8) : Nat :=
  if b < 0x80 then b.toNat
  else if b < 0xe0 then b.toNat % 32
  else if b < 0xf0 then b.toNat % 16
  else b.toNat % 8

/-- The first character of a row of bytes. -/
def decodeChar (b : UInt8) (rest : List UInt8) : Option Char :=
  let tail := rest.take (sizeOf b - 1)
  let c := Char.ofNat (tail.foldl (fun n x => n * 64 + x.toNat % 64) (leadBits b))
  if String.utf8EncodeChar c = b :: tail then some c else none

/-- The characters of a row of bytes, or none if it is not UTF-8. The bound `fuel` is at least the
number of bytes. -/
def decodeChars : Nat → List UInt8 → Option (List Char)
  | _, [] => some []
  | 0, _ :: _ => none
  | fuel + 1, b :: rest => do
    let c ← decodeChar b rest
    let cs ← decodeChars fuel (rest.drop (sizeOf b - 1))
    some (c :: cs)

def decode? (bytes : List UInt8) : Option String :=
  (decodeChars bytes.length bytes).map String.ofList

end Utf8
end RecordStore
