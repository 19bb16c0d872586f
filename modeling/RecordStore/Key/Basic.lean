import RecordStore.Failure.Basic

/-!
Keys. A key is a number, a date, a text, bytes, or an array of keys. Numbers are doubles and dates
count milliseconds as doubles, so that whole numbers are rounded when they become keys. Checking a
value and converting it are two steps: a value that passes the check may still be a number too
large to convert.
-/

namespace RecordStore

inductive Key where
  | number (x : Double)
  | date (millis : Double)
  | text (s : String)
  | bytes (b : List UInt8)
  | array (items : List Key)

namespace Key

/-- The deepest array in which another array may stand. -/
def maxDepth : Nat := 64

mutual

/-- Refuses a value that can be no key, at the first part that is at fault. -/
def check (depth : Nat) : Value → Except StoreFault Unit
  | .int _ => .ok ()
  | .float x => if x.isNaN then .error .nanKey else .ok ()
  | .date d => if d.offset.isNone then .error .dateWithoutZone else .ok ()
  | .text _ => .ok ()
  | .bytes _ => .ok ()
  | .list items => if maxDepth < depth then .error .keyTooDeep else checkAll (depth + 1) items
  | .tuple items => if maxDepth < depth then .error .keyTooDeep else checkAll (depth + 1) items
  | .null => .error (.notKey .null)
  | .bool b => .error (.notKey (.bool b))
  | v => .error (.unsupportedKey v.kind)

def checkAll (depth : Nat) : List Value → Except StoreFault Unit
  | [] => .ok ()
  | v :: rest => do
    check depth v
    checkAll depth rest

end

/-- The milliseconds from the start of 1970 to an instant: the seconds are rounded to a double
first, and their thousandfold once more. -/
def millisOf (micros : Int) : Double :=
  (Double.ofRatio (micros < 0) micros.natAbs 1000000).scale 1000 1

mutual

/-- Converts a value that passed the check. -/
def convert : Value → Except FormatFault Key
  | .int n =>
    match Double.ofInt? n with
    | some x => .ok (number x)
    | none => .error .numberTooLarge
  | .float x => .ok (number x)
  | .date d => .ok (date (millisOf d.instant))
  | .text s => .ok (text s)
  | .bytes b => .ok (bytes b)
  | .list items => (convertAll items).map array
  | .tuple items => (convertAll items).map array
  | _ => .ok (array [])

def convertAll : List Value → Except FormatFault (List Key)
  | [] => .ok []
  | v :: rest => do
    let k ← convert v
    let ks ← convertAll rest
    .ok (k :: ks)

end

/-- The key that a value is. -/
def ofValue (v : Value) : Except Failure Key :=
  match check 0 v with
  | .error f => .error (.store f)
  | .ok () =>
    match convert v with
    | .error f => .error (.format f)
    | .ok k => .ok k

end Key

/-- A value passes the check for keys. -/
def Value.isValidKey (v : Value) : Bool := (Key.check 0 v).isOk

end RecordStore
