import RecordStore.Calendar.DateTime
import RecordStore.Number.Decimal

/-!
Dates and times as text in the manner of ISO 8601. Writing has one form,
`2024-05-01T10:20:30.000004+05:30`, whose fraction and offset appear when they are there. Reading
also takes the other spellings: days without dashes, weeks, any one character between date and
time, a comma for the point, and `Z`.
-/

namespace RecordStore
namespace IsoText

/-- A natural number with at least `width` digits. -/
def padded (width n : Nat) : List Char :=
  let digits := Decimal.digitsOf n
  List.replicate (width - digits.length) '0' ++ digits

def fraction (micro : Nat) : List Char :=
  if micro = 0 then [] else '.' :: padded 6 micro

def offsetText (offset : Int) : List Char :=
  let total := offset.natAbs
  let seconds := total / 1000000
  let micro := total % 1000000
  (if offset < 0 then '-' else '+') :: (padded 2 (seconds / 3600) ++
    ':' :: padded 2 (seconds / 60 % 60) ++
    (if seconds % 60 = 0 ∧ micro = 0 then [] else ':' :: padded 2 (seconds % 60) ++ fraction micro))

/-- The text of a date and time, with `separator` between the two. -/
def text (separator : Char) (d : DateTime) : List Char :=
  let r := d.reading
  padded 4 r.year ++ '-' :: padded 2 r.month ++ '-' :: padded 2 r.day ++
    separator :: padded 2 r.hour ++ ':' :: padded 2 r.minute ++ ':' :: padded 2 r.second ++
    fraction r.micro ++ (d.offset.elim [] offsetText)

/-- Why a text is not a date and time. -/
inductive Fault where
  | notIso
  | year (n : Int)
  | month
  | day
  | hour
  | minute
  | second
  /-- An offset of a day or more, in microseconds. -/
  | offset (micros : Int)
  deriving DecidableEq

/-- The number made by the first `n` characters, if these are decimal digits, and the rest. -/
def takeDigits (n : Nat) (cs : List Char) : Option (Nat × List Char) :=
  let digits := cs.take n
  if digits.length = n ∧ digits.all Char.isDigit then some (Decimal.ofDigits digits, cs.drop n)
  else none

/-- The place of the character between date and time. The length of the date is told by the
characters after the year; a week date with a day and one without are told apart by the parity of
the digits that follow. -/
def separatorPlace (cs : List Char) : Nat :=
  let isAt (i : Nat) (c : Char) : Bool := cs[i]? == some c
  if cs.length = 7 then 7
  else if isAt 4 '-' then
    if isAt 5 'W' then
      if isAt 8 '-' then if ((cs[10]?).any Char.isDigit) then 8 else 10 else 8
    else 10
  else if isAt 4 'W' then
    let place := 7 + ((cs.drop 7).takeWhile Char.isDigit).length
    if place < 9 then place else if place % 2 = 0 then 7 else 8
  else 8

/-- The day number of the Monday of the first week of a year: the week that holds its first
Thursday. -/
def firstMonday (year : Nat) : Nat :=
  let first := Calendar.daysBeforeYear year
  let weekday := Calendar.weekday first
  if weekday ≤ 3 then first - weekday else first + 7 - weekday

/-- A year has 53 weeks if it starts on a Thursday, or on a Wednesday when it is a leap year. -/
def hasLongYear (year : Nat) : Bool :=
  let weekday := Calendar.weekday (Calendar.daysBeforeYear year)
  weekday == 3 || (weekday == 2 && Calendar.isLeap year)

/-- Year, month and day of a day of a week. The weeks of year 0 lie before the calendar, and their
days are in no month. -/
def ofWeek (year week day : Nat) : Option (Nat × Nat × Nat) :=
  if (1 ≤ week ∧ (week ≤ 52 ∨ (week = 53 ∧ hasLongYear year))) ∧ 1 ≤ day ∧ day ≤ 7 then
    if year = 0 then some (1, 0, 0)
    else some (Calendar.ofDayNumber (firstMonday year + (week - 1) * 7 + (day - 1)))
  else none

/-- Reads the date at the start of a text; `place` is where it ends. -/
def readDate (place : Nat) (cs : List Char) : Option (Nat × Nat × Nat) := do
  let (year, rest) ← takeDigits 4 cs
  let dashed := rest.head? == some '-'
  let dash (cs : List Char) : Option (List Char) :=
    if dashed then if cs.head? = some '-' then some cs.tail else none else some cs
  let rest ← dash rest
  if rest.head? = some 'W' then
    let (week, rest) ← takeDigits 2 rest.tail
    if (if dashed then 8 else 7) < place then
      let rest ← dash rest
      let (day, _) ← takeDigits 1 rest
      ofWeek year week day
    else ofWeek year week 1
  else
    let (month, rest) ← takeDigits 2 rest
    let rest ← dash rest
    let (day, _) ← takeDigits 2 rest
    some (year, month, day)

/-- A time of day or an offset as it is written, and whether text was left over. -/
structure Clock where
  hour : Nat := 0
  minute : Nat := 0
  second : Nat := 0
  micro : Nat := 0
  leftover : Bool := false

/-- Text that is left over; a null character ends it. -/
def isLeftover (cs : List Char) : Bool := (cs.head?).any (· != '\x00')

/-- Ends a clock after one more character, which is left over. Only an ASCII character can be. -/
def closeAfter (clock : Clock) (c : Char) : Option Clock :=
  if c.toNat < 128 then some { clock with leftover := isLeftover [c] } else none

/-- Reads the fraction of a second: six places count, and further digits are dropped. -/
def readFraction (clock : Clock) (cs : List Char) : Option Clock := do
  let width := min 6 cs.length
  let (n, rest) ← takeDigits width cs
  some { clock with
    micro := n * 10 ^ (6 - width)
    leftover := isLeftover (rest.dropWhile Char.isDigit) }

/-- Reads the second part of a clock, after `colon` told how parts are divided. -/
def readSecond (clock : Clock) (colon : Bool) (cs : List Char) : Option Clock := do
  let (second, rest) ← takeDigits 2 cs
  let clock := { clock with second := second }
  match rest with
  | [] => some clock
  | [c] => closeAfter clock c
  | c :: more =>
    if colon && c == ':' || c == '.' || c == ',' then readFraction clock more
    else if colon then none else readFraction clock rest

def readMinute (clock : Clock) (colon : Bool) (cs : List Char) : Option Clock := do
  let (minute, rest) ← takeDigits 2 cs
  let clock := { clock with minute := minute }
  match rest with
  | [] => some clock
  | [c] => closeAfter clock c
  | c :: more =>
    if colon && c == ':' then readSecond clock colon more
    else if c == '.' || c == ',' then readFraction clock more
    else if colon then none else readSecond clock colon rest

/-- Reads a clock: two digits each for hour, minute and second, divided by colons or not at all, and
a fraction. -/
def readClock (cs : List Char) : Option Clock := do
  let (hour, rest) ← takeDigits 2 cs
  let clock : Clock := { hour := hour }
  match rest with
  | [] => some clock
  | [c] => closeAfter clock c
  | c :: more =>
    if c == ':' then readMinute clock true more
    else if c == '.' || c == ',' then readFraction clock more
    else readMinute clock false rest

/-- Reads a time of day and the offset after it, in microseconds. -/
def readTime (cs : List Char) : Option (Clock × Option Int) := do
  let isSign (c : Char) : Bool := c == '+' || c == '-' || c == 'Z'
  let clock ← readClock (cs.takeWhile (!isSign ·))
  match cs.dropWhile (!isSign ·) with
  | [] => if clock.leftover then none else some (clock, none)
  | 'Z' :: rest => if isLeftover rest then none else some (clock, some 0)
  | sign :: rest =>
    let zone ← readClock rest
    let seconds : Int := zone.hour * 3600 + zone.minute * 60 + zone.second
    let size := if seconds = 0 then 0 else seconds * 1000000 + zone.micro
    if zone.leftover then none else some (clock, some (if sign = '-' then -size else size))

/-- Checks the parts of a date and time in the order in which they are written, the offset first. -/
def assemble (date : Nat × Nat × Nat) (clock : Clock) (offset : Option Int) :
    Except Fault DateTime :=
  let (year, month, day) := date
  let r : Reading := ⟨year, month, day, clock.hour, clock.minute, clock.second, clock.micro⟩
  if ho : ∀ o ∈ offset, IsOffset o then
    if hr : r.IsValid then .ok ⟨r, offset, hr, ho⟩
    else if ¬(1 ≤ year ∧ year ≤ 9999) then .error (.year year)
    else if ¬(1 ≤ month ∧ month ≤ 12) then .error .month
    else if ¬(1 ≤ day ∧ day ≤ Calendar.daysInMonth year month) then .error .day
    else if 23 < clock.hour then .error .hour
    else if 59 < clock.minute then .error .minute
    else .error .second
  else .error (.offset (offset.getD 0))

/-- Reads a date with an optional time of day and offset. -/
def read (cs : List Char) : Except Fault DateTime :=
  let place := separatorPlace cs
  if cs.length < 7 then .error .notIso
  else match readDate place cs with
    | none => .error .notIso
    | some date =>
      match cs.drop place with
      | [] => assemble date {} none
      | _ :: time =>
        match readTime time with
        | none => .error .notIso
        | some (clock, offset) => assemble date clock offset

end IsoText
end RecordStore
