import RecordStore.Key.Basic
import RecordStore.Text.Utf8

/-!
Keys as bytes whose order, byte by byte, is the order of keys: numbers before dates, texts, bytes
and arrays. A tag tells the kind. The eight bytes of a number have the sign bit turned over, and
all bits when it is negative. In texts and bytes a zero is followed by 255 and two zeros end the
content, so an end sorts before every continuation; an array ends with one zero, which sorts
before every tag.
-/

namespace RecordStore

/-- Encoded keys. -/
abbrev Bytes := List UInt8

namespace Bytes

/-- Order byte by byte; a beginning comes before what it begins. -/
def lt : Bytes → Bytes → Bool
  | _, [] => false
  | [], _ :: _ => true
  | a :: as, b :: bs => a < b || (a == b && lt as bs)

/-- The order of two rows of bytes. -/
def compare (a b : Bytes) : Ordering := if a = b then .eq else if lt a b then .lt else .gt

end Bytes

namespace Key

def numberTag : UInt8 := 0x10
def dateTag : UInt8 := 0x20
def textTag : UInt8 := 0x30
def bytesTag : UInt8 := 0x40
def arrayTag : UInt8 := 0x50

/-- A word as eight bytes, the most significant first. -/
def wordBytes (w : Nat) : Bytes :=
  [56, 48, 40, 32, 24, 16, 8, 0].map fun shift => UInt8.ofNat (w / 2 ^ shift)

def ofWordBytes (bytes : Bytes) : Nat := bytes.foldl (fun n b => n * 256 + b.toNat) 0

/-- The word whose order is that of doubles. -/
def orderedWord (x : Double) : Nat :=
  let w := x.withoutNegativeZero.word
  if w < 2 ^ 63 then w + 2 ^ 63 else 2 ^ 64 - 1 - w

def ofOrderedWord (w : Nat) : Double :=
  ⟨UInt64.ofNat (if w < 2 ^ 63 then 2 ^ 64 - 1 - w else w - 2 ^ 63)⟩

def encodeDouble (x : Double) : Bytes := wordBytes (orderedWord x)

/-- Content with its zeros marked, and the end after it. -/
def escape : Bytes → Bytes
  | [] => [0, 0]
  | b :: rest => if b = 0 then 0 :: 255 :: escape rest else b :: escape rest

mutual

def encode : Key → Bytes
  | number x => numberTag :: encodeDouble x
  | date millis => dateTag :: encodeDouble millis
  | text s => textTag :: escape (Utf8.encode s)
  | bytes b => bytesTag :: escape b
  | array items => arrayTag :: encodeAll items

/-- The elements of an array and its end. -/
def encodeAll : List Key → Bytes
  | [] => [0]
  | k :: rest => encode k ++ encodeAll rest

end

/-- Reads content up to its end. -/
def unescape : Bytes → Except StoreFault (Bytes × Bytes)
  | [] => .error .unterminated
  | 0 :: 0 :: rest => .ok ([], rest)
  | 0 :: 255 :: rest => (unescape rest).map fun (content, rest) => (0 :: content, rest)
  | 0 :: _ => .error .corruptEscape
  | b :: rest => (unescape rest).map fun (content, rest) => (b :: content, rest)

/-- Reads the eight bytes of a number. -/
def decodeDouble (data : Bytes) : Except FormatFault (Double × Bytes) :=
  let raw := data.take 8
  if raw.length = 0 then .error .noNumber
  else if raw.length < 8 then .error .shortNumber
  else .ok (ofOrderedWord (ofWordBytes raw), data.drop 8)

/-- A number as a value: a whole number of at most 2⁵³ either way is told as such. -/
def numberValue (x : Double) : Value :=
  if x.isIntegral ∧ x.truncate.natAbs ≤ 2 ^ 53 then .int x.truncate else .float x

/-- The year of an instant, which may lie outside the calendar. -/
def yearOf (micros : Int) : Int :=
  let day := micros.fdiv 86400000000 + Calendar.epochDay
  day.fdiv 146097 * 400 + (Calendar.yearOfDay (day.fmod 146097).toNat).1

/-- The microseconds of a time in seconds: those of the whole seconds, and those of the fraction
after one rounding to a double and one to a whole number. -/
def microsOf (seconds : Double) : Int :=
  let fraction := seconds.units - seconds.truncate * Double.unitsPerOne
  let micros := Double.ofUnitsRatio (fraction < 0) (fraction.natAbs * 1000000) 1
  let size := Double.roundDiv (Double.unitsOfIndex micros.index) Double.unitsPerOne
  seconds.truncate * 1000000 + (if fraction < 0 then -(size : Int) else size)

/-- The date at a time in milliseconds. -/
def dateValue (millis : Double) : Except FormatFault Value :=
  if millis.isNaN then .error .nanDate
  else
    let seconds := millis.scale 1 1000
    if millis.isInfinite ∨ ¬(-(2 ^ 63 : Int) ≤ seconds.truncate ∧ seconds.truncate < 2 ^ 63) then
      .error .dateBeyondClock
    else
      let micros := microsOf seconds
      let year := yearOf micros
      if ¬(-(2 ^ 31 : Int) ≤ year - 1900 ∧ year - 1900 < 2 ^ 31) then .error .dateBeyondCalendar
      else match DateTime.ofInstant? micros with
        | some d => .ok (.date d)
        | none => .error (.dateYear (year.bmod (2 ^ 32)))

def storeResult {α : Type} : Except StoreFault α → Except Failure α
  | .ok a => .ok a
  | .error f => .error (.store f)

def formatResult {α : Type} : Except FormatFault α → Except Failure α
  | .ok a => .ok a
  | .error f => .error (.format f)

mutual

/-- Reads one key. The bound `fuel` is larger than the number of bytes. -/
def decodeFrom : Nat → Bytes → Except Failure (Value × Bytes)
  | 0, _ => .error (.format .noByte)
  | _ + 1, [] => .error (.format .noByte)
  | fuel + 1, tag :: data =>
    if tag = numberTag then do
      let (x, rest) ← formatResult (decodeDouble data)
      .ok (numberValue x, rest)
    else if tag = dateTag then do
      let (x, rest) ← formatResult (decodeDouble data)
      let v ← formatResult (dateValue x)
      .ok (v, rest)
    else if tag = textTag then do
      let (content, rest) ← storeResult (unescape data)
      match Utf8.decode? content with
      | some s => .ok (.text s, rest)
      | none => .error (.format .notUtf8)
    else if tag = bytesTag then do
      let (content, rest) ← storeResult (unescape data)
      .ok (.bytes content, rest)
    else if tag = arrayTag then do
      let (items, rest) ← decodeItems fuel data
      .ok (.list items, rest)
    else .error (.store (.unknownTag tag))

/-- Reads keys up to the end of an array. -/
def decodeItems : Nat → Bytes → Except Failure (List Value × Bytes)
  | 0, _ => .error (.format .noByte)
  | _ + 1, [] => .error (.format .noByte)
  | fuel + 1, b :: data =>
    if b = 0 then .ok ([], data)
    else do
      let (v, rest) ← decodeFrom fuel (b :: data)
      let (items, rest) ← decodeItems fuel rest
      .ok (v :: items, rest)

end

/-- Reads the key that starts at a position of some bytes, and yields the position after it. -/
def decodeAt (data : Bytes) (pos : Nat) : Except Failure (Value × Nat) := do
  let (v, rest) ← decodeFrom (2 * data.length + 1) (data.drop pos)
  .ok (v, data.length - rest.length)

/-- The value of an encoded key with nothing after it. -/
def decode (data : Bytes) : Except Failure Value := do
  let (v, pos) ← decodeAt data 0
  if pos = data.length then .ok v else .error (.store .trailingBytes)

end Key

/-- A value as an encoded key. -/
def Value.encodeKey (v : Value) : Except Failure Bytes := (Key.ofValue v).map Key.encode

/-- The order of two values as keys. -/
def Value.compareKeys (v w : Value) : Except Failure Ordering := do
  let a ← v.encodeKey
  let b ← w.encodeKey
  .ok (a.compare b)

end RecordStore
