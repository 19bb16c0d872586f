/-!
Dates with a time of day in the proleptic Gregorian calendar, years 1 to 9999, to the microsecond.
A date and time may carry an offset from UTC; it then also denotes an instant, counted in
microseconds from the start of 1970 in UTC.
-/

namespace RecordStore

namespace Calendar

def isLeap (year : Nat) : Bool := year % 4 == 0 && (year % 100 != 0 || year % 400 == 0)

def daysInMonth (year month : Nat) : Nat :=
  match month with
  | 2 => if isLeap year then 29 else 28
  | 4 | 6 | 9 | 11 => 30
  | _ => 31

/-- The days of the months before `month` in one year. -/
def daysBeforeMonth (year : Nat) : Nat → Nat
  | 0 => 0
  | 1 => 0
  | month + 1 => daysBeforeMonth year month + daysInMonth year month

/-- The days of the years 1 to `year - 1`. -/
def daysBeforeYear (year : Nat) : Nat :=
  let past := year - 1
  past * 365 + past / 4 - past / 100 + past / 400

/-- The number of a day, the first of January of year 1 being day 0. -/
def dayNumber (year month day : Nat) : Nat :=
  daysBeforeYear year + daysBeforeMonth year month + (day - 1)

/-- The number of the first day of 1970. -/
def epochDay : Nat := 719162

/-- The year that a day number falls in, and the days of that year before it. -/
def yearOfDay (n : Nat) : Nat × Nat :=
  let cycles := n / 146097
  let n := n % 146097
  let centuries := min (n / 36524) 3
  let n := n - centuries * 36524
  let fours := n / 1461
  let n := n % 1461
  let years := min (n / 365) 3
  (cycles * 400 + centuries * 100 + fours * 4 + years + 1, n - years * 365)

/-- The month and day of the day with `n` days before it in its year; `fuel` months are left to
look at, starting with `month`. -/
def monthOfDay (year : Nat) : Nat → Nat → Nat → Nat × Nat
  | 0, month, n => (month, n + 1)
  | fuel + 1, month, n =>
    if n < daysInMonth year month then (month, n + 1)
    else monthOfDay year fuel (month + 1) (n - daysInMonth year month)

/-- Year, month and day of a day number. -/
def ofDayNumber (n : Nat) : Nat × Nat × Nat :=
  let (year, rest) := yearOfDay n
  let (month, day) := monthOfDay year 11 1 rest
  (year, month, day)

/-- The day of the week of a day number, Monday being 0. -/
def weekday (n : Nat) : Nat := n % 7

end Calendar

/-- A reading of calendar and clock, not yet known to be possible. -/
structure Reading where
  year : Nat
  month : Nat
  day : Nat
  hour : Nat
  minute : Nat
  second : Nat
  micro : Nat
  deriving DecidableEq

namespace Reading

def IsValid (r : Reading) : Prop :=
  (1 ≤ r.year ∧ r.year ≤ 9999) ∧ (1 ≤ r.month ∧ r.month ≤ 12) ∧
  (1 ≤ r.day ∧ r.day ≤ Calendar.daysInMonth r.year r.month) ∧
  r.hour ≤ 23 ∧ r.minute ≤ 59 ∧ r.second ≤ 59 ∧ r.micro ≤ 999999

instance (r : Reading) : Decidable r.IsValid := by unfold IsValid; infer_instance

/-- The microseconds from the start of 1970 on the clock that shows the reading. -/
def micros (r : Reading) : Int :=
  let days : Int := Calendar.dayNumber r.year r.month r.day - (Calendar.epochDay : Int)
  let seconds : Int := (days * 24 + r.hour) * 3600 + r.minute * 60 + r.second
  seconds * 1000000 + r.micro

/-- The reading of a clock `micros` microseconds after the start of 1970; only days from the first
of year 1 on are meaningful. -/
def ofMicros (micros : Int) : Reading :=
  let day := (micros.fdiv 86400000000 + Calendar.epochDay).toNat
  let rest := (micros.fmod 86400000000).toNat
  let (year, month, date) := Calendar.ofDayNumber day
  { year := year
    month := month
    day := date
    hour := rest / 3600000000
    minute := rest / 60000000 % 60
    second := rest / 1000000 % 60
    micro := rest % 1000000 }

end Reading

/-- An offset from UTC in microseconds, less than a day either way. -/
def IsOffset (micros : Int) : Prop := -86400000000 < micros ∧ micros < 86400000000

instance (micros : Int) : Decidable (IsOffset micros) := by unfold IsOffset; infer_instance

/-- A date with a time of day, and the offset from UTC of the clock it was read from if that is
known. -/
structure DateTime where
  reading : Reading
  offset : Option Int
  reading_isValid : reading.IsValid
  offset_isOffset : ∀ o ∈ offset, IsOffset o
  deriving DecidableEq

namespace DateTime

/-- The microseconds from the start of 1970 in UTC; without an offset the clock is taken for one
that shows UTC. -/
def instant (d : DateTime) : Int := d.reading.micros - d.offset.getD 0

/-- The date and time in UTC of an instant, if it falls in the years 1 to 9999. -/
def ofInstant? (micros : Int) : Option DateTime :=
  if h : (Reading.ofMicros micros).IsValid ∧ -62135596800000000 ≤ micros then
    some { reading := Reading.ofMicros micros
           offset := some 0
           reading_isValid := h.1
           offset_isOffset := by intro o ho; cases ho; decide }
  else none

/-- Equality of dates with times: instants are compared when both have an offset and clock readings
when neither has; with only one offset the two differ. -/
def equals (d e : DateTime) : Bool :=
  match d.offset, e.offset with
  | some _, some _ => d.instant == e.instant
  | none, none => d.reading == e.reading
  | _, _ => false

end DateTime
end RecordStore
