import RecordStore.Document.Basic

/-!
The text of documents, in ASCII and without blanks. Characters outside printable ASCII are escaped
by their UTF-16 units; doubles are written by their shortest decimal.
-/

namespace RecordStore
namespace Document

def nullWord : List Char := ['n', 'u', 'l', 'l']
def trueWord : List Char := ['t', 'r', 'u', 'e']
def falseWord : List Char := ['f', 'a', 'l', 's', 'e']
def nanWord : List Char := ['N', 'a', 'N']
def infinityWord : List Char := ['I', 'n', 'f', 'i', 'n', 'i', 't', 'y']

/-- A number below 65536 as four hexadecimal digits. -/
def hex4 (n : Nat) : List Char :=
  [12, 8, 4, 0].map fun shift => Quoted.hexDigit (n / 2 ^ shift % 16)

def unicodeEscape (n : Nat) : List Char := '\\' :: 'u' :: hex4 n

/-- A character inside quotes. -/
def escapeChar (c : Char) : List Char :=
  if c = '"' then ['\\', '"']
  else if c = '\\' then ['\\', '\\']
  else if c = '\n' then ['\\', 'n']
  else if c = '\r' then ['\\', 'r']
  else if c = '\t' then ['\\', 't']
  else if c = '\x08' then ['\\', 'b']
  else if c = '\x0c' then ['\\', 'f']
  else if 32 ≤ c.toNat ∧ c.toNat ≤ 126 then [c]
  else if c.toNat < 65536 then unicodeEscape c.toNat
  else
    let n := c.toNat - 65536
    unicodeEscape (0xd800 + n / 1024) ++ unicodeEscape (0xdc00 + n % 1024)

def printString (s : String) : List Char := '"' :: s.toList.flatMap escapeChar ++ ['"']

def printInt (n : Int) : List Char :=
  if n < 0 then '-' :: Decimal.digitsOf n.natAbs else Decimal.digitsOf n.natAbs

def printDouble (x : Double) : List Char :=
  if x.isNaN then nanWord
  else if x.isInfinite then (if x.isNegative then '-' :: infinityWord else infinityWord)
  else x.decimalText

mutual

def print : Document → List Char
  | null => nullWord
  | bool b => if b then trueWord else falseWord
  | int n => printInt n
  | float x => printDouble x
  | text s => printString s
  | list [] => ['[', ']']
  | list (d :: rest) => '[' :: print d ++ printItems rest
  | object [] => ['\x7b', '\x7d']
  | object ((name, d) :: rest) =>
    '\x7b' :: printString name ++ ':' :: print d ++ printMembers rest

/-- The items after the first one, and the end of a list. -/
def printItems : List Document → List Char
  | [] => [']']
  | d :: rest => ',' :: print d ++ printItems rest

/-- The members after the first one, and the end of an object. -/
def printMembers : List (String × Document) → List Char
  | [] => ['\x7d']
  | (name, d) :: rest => ',' :: printString name ++ ':' :: print d ++ printMembers rest

end

end Document

/-- The text that a value is stored as. -/
def Value.dumps (v : Value) : Except StoreFault String :=
  (Document.ofValue v).map fun d => String.ofList d.print

end RecordStore
