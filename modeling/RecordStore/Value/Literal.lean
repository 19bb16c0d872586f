import RecordStore.Calendar.IsoText
import RecordStore.Text.Quoted
import RecordStore.Value.Basic

/-!
Values as messages show them. A literal tells values of different kinds apart; the display of a
value is its literal, except that text and dates stand for themselves.
-/

namespace RecordStore

namespace Literal

def ofInt (n : Int) : String := toString n

def ofDouble (x : Double) : String :=
  if x.isNaN then "nan"
  else if x.isInfinite then (if x.isNegative then "-inf" else "inf")
  else String.ofList x.decimalText

def ofText (s : String) : String := String.ofList (Quoted.text s.toList)

/-- A span of time in microseconds: whole days, rounded down, and the seconds and microseconds of
the rest, each left out when it is zero. -/
def ofSpan (micros : Int) : String :=
  let days := micros.fdiv 86400000000
  let rest := micros.fmod 86400000000
  let part (name : String) (n : Int) : List String := if n = 0 then [] else [name ++ "=" ++ ofInt n]
  let parts := part "days" days ++ part "seconds" (rest / 1000000) ++
    part "microseconds" (rest % 1000000)
  "datetime.timedelta(" ++ (if parts.isEmpty then "0" else ", ".intercalate parts) ++ ")"

def ofOffset (micros : Int) : String :=
  if micros = 0 then "datetime.timezone.utc" else "datetime.timezone(" ++ ofSpan micros ++ ")"

/-- A date and time by its parts; seconds and microseconds are left out when nothing follows
them. -/
def ofDate (d : DateTime) : String :=
  let r := d.reading
  let tail := if r.micro ≠ 0 then [r.second, r.micro] else if r.second ≠ 0 then [r.second] else []
  let parts := ([r.year, r.month, r.day, r.hour, r.minute] ++ tail).map fun n : Nat => toString n
  let zone := d.offset.elim [] fun o => ["tzinfo=" ++ ofOffset o]
  "datetime.datetime(" ++ ", ".intercalate (parts ++ zone) ++ ")"

def ofBool (b : Bool) : String := if b then "True" else "False"

/-- The whole numbers among values. -/
def intKey (v : Value × String) : Int :=
  match v.1 with
  | .int n => n
  | _ => 0

/-- The literals of the elements of a set, whole numbers in ascending order. -/
def inSetOrder (items : List (Value × String)) : List String :=
  (items.mergeSort fun a b => decide (intKey a ≤ intKey b)).map Prod.snd

def call (name : String) (args : List (String × String)) : String :=
  name ++ "(" ++ ", ".intercalate (args.map fun (n, v) => n ++ "=" ++ v) ++ ")"

mutual

def ofValue : Value → String
  | .null => "None"
  | .bool b => ofBool b
  | .int n => ofInt n
  | .float x => ofDouble x
  | .text s => ofText s
  | .bytes b => String.ofList (Quoted.bytes b)
  | .date d => ofDate d
  | .list items => "[" ++ ", ".intercalate (ofValues items) ++ "]"
  | .tuple [v] => "(" ++ ofValue v ++ ",)"
  | .tuple items => "(" ++ ", ".intercalate (ofValues items) ++ ")"
  | .set [] => "set()"
  | .set items => "\x7b" ++ ", ".intercalate (inSetOrder (items.zip (ofValues items))) ++ "\x7d"
  | .dict members => "\x7b" ++ ", ".intercalate (ofMembers members) ++ "\x7d"
  | .ellipsis => "Ellipsis"
  | .descriptor (.equals v) => call "Equals" [("value", ofValue v)]
  | .descriptor (.lower v i) => call "LowerBound" [("value", ofValue v), ("inclusive", ofValue i)]
  | .descriptor (.upper v i) => call "UpperBound" [("value", ofValue v), ("inclusive", ofValue i)]
  | .descriptor (.bound l u i j) =>
    call "Bound" [("lower", ofValue l), ("upper", ofValue u), ("lower_inclusive", ofValue i),
      ("upper_inclusive", ofValue j)]
  | .descriptor .unbounded => "UNBOUNDED"
  | .keyRange r => ofKeyRange r
  | .bare v => call "Bare" [("value", ofValue v)]
  | .keyed k v => call "Keyed" [("key", ofValue k), ("value", ofValue v)]
  | .callable _ => "<function>"

def ofValues : List Value → List String
  | [] => []
  | v :: rest => ofValue v :: ofValues rest

def ofMembers : List (Value × Value) → List String
  | [] => []
  | (k, v) :: rest => (ofValue k ++ ": " ++ ofValue v) :: ofMembers rest

def ofKeyRange : KeyRange Value → String
  | ⟨l, u, lo, uo, _, _⟩ =>
    call "KeyRange" [("lower", ofValue l), ("upper", ofValue u), ("lower_open", ofBool lo),
      ("upper_open", ofBool uo)]

end

end Literal

/-- A value as a literal. -/
def Value.literal (v : Value) : String := Literal.ofValue v

/-- A value inside a sentence. -/
def Value.display : Value → String
  | .text s => s
  | .date d => String.ofList (IsoText.text ' ' d)
  | v => v.literal

end RecordStore
