/-!
Bytes as text in base 64. Writing pads to whole groups of four symbols. Reading is lenient: symbols
outside the alphabet are passed over, a closing pair of pads ends the text, and only a group that is
left incomplete is an error.
-/

namespace RecordStore
namespace Base64

/-- The symbol of six bits. -/
def symbol (n : Nat) : Char :=
  if n < 26 then Char.ofNat (65 + n)
  else if n < 52 then Char.ofNat (71 + n)
  else if n < 62 then Char.ofNat (n - 4)
  else if n = 62 then '+' else '/'

/-- The six bits of a symbol. -/
def bits? (c : UInt8) : Option Nat :=
  if 65 ≤ c ∧ c ≤ 90 then some (c.toNat - 65)
  else if 97 ≤ c ∧ c ≤ 122 then some (c.toNat - 71)
  else if 48 ≤ c ∧ c ≤ 57 then some (c.toNat + 4)
  else if c = 43 then some 62
  else if c = 47 then some 63
  else none

def encode : List UInt8 → List Char
  | [] => []
  | [a] =>
    let n := a.toNat * 16
    [symbol (n / 64), symbol (n % 64), '=', '=']
  | [a, b] =>
    let n := (a.toNat * 256 + b.toNat) * 4
    [symbol (n / 4096), symbol (n / 64 % 64), symbol (n % 64), '=']
  | a :: b :: c :: rest =>
    let n := (a.toNat * 256 + b.toNat) * 256 + c.toNat
    symbol (n / 262144) :: symbol (n / 4096 % 64) :: symbol (n / 64 % 64) :: symbol (n % 64) ::
      encode rest

/-- Why a text is not read. -/
inductive Fault where
  /-- One symbol is left over after whole groups; the count of all symbols is told. -/
  | oneOver (symbols : Nat)
  | padding
  deriving DecidableEq

/-- How far reading has come: the bytes so far, the symbols of the open group, the bits of it that
belong to the next byte, and the pads seen since the last symbol. -/
structure Progress where
  bytes : List UInt8 := []
  inGroup : Nat := 0
  pending : Nat := 0
  pads : Nat := 0

/-- Takes one more symbol of six bits. -/
def Progress.push (p : Progress) (n : Nat) : Progress :=
  match p.inGroup with
  | 0 => { bytes := p.bytes, inGroup := 1, pending := n }
  | 1 =>
    { bytes := p.bytes ++ [UInt8.ofNat (p.pending * 4 + n / 16)], inGroup := 2, pending := n % 16 }
  | 2 =>
    { bytes := p.bytes ++ [UInt8.ofNat (p.pending * 16 + n / 4)], inGroup := 3, pending := n % 4 }
  | _ => { bytes := p.bytes ++ [UInt8.ofNat (p.pending * 64 + n)] }

def decodeFrom (p : Progress) : List UInt8 → Except Fault (List UInt8)
  | [] =>
    if p.inGroup = 0 then .ok p.bytes
    else if p.inGroup = 1 then .error (.oneOver (p.bytes.length / 3 * 4 + 1))
    else .error .padding
  | c :: rest =>
    if c = 61 then
      if 2 ≤ p.inGroup then
        if 4 ≤ p.inGroup + p.pads + 1 then .ok p.bytes
        else decodeFrom { p with pads := p.pads + 1 } rest
      else decodeFrom p rest
    else match bits? c with
      | none => decodeFrom p rest
      | some n => decodeFrom (p.push n) rest

def decode (text : List UInt8) : Except Fault (List UInt8) := decodeFrom {} text

end Base64
end RecordStore
