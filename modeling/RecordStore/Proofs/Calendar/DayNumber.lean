import RecordStore.Proofs.Calendar.IsoText

/-!
Instants and readings. A day number is read as the year, month and day that have it, so the clock that is set
by an instant shows the instant; and an instant is a date just from the start of year 1 to the end of year
9999.
-/

namespace RecordStore

namespace Calendar

/-- The days of a year. -/
def daysInYear (year : Nat) : Nat := if isLeap year then 366 else 365

/-- The century, the four years and the year that a day of a cycle of 400 years falls into, and what is left
of it: the last day of a leap year would be in a year, or a century, of its own. -/
theorem exists_cycle {m : Nat} (h : m < 146097) : ∃ ce f y rest,
    ce = min (m / 36524) 3 ∧ f = (m - ce * 36524) / 1461 ∧ y = min ((m - ce * 36524) % 1461 / 365) 3 ∧
      rest = (m - ce * 36524) % 1461 - y * 365 ∧
      m = ce * 36524 + f * 1461 + y * 365 + rest ∧ ce ≤ 3 ∧ f ≤ 24 ∧ y ≤ 3 ∧
      (rest < 365 ∨ rest = 365 ∧ y = 3 ∧ (f = 24 → ce = 3)) := by
  refine ⟨_, _, _, _, rfl, rfl, rfl, rfl, ?_⟩
  obtain ⟨ce, hce⟩ : ∃ ce, ce = min (m / 36524) 3 := ⟨_, rfl⟩
  obtain ⟨d, hd⟩ : ∃ d, d = m - ce * 36524 := ⟨_, rfl⟩
  obtain ⟨r, hr⟩ : ∃ r, r = d % 1461 := ⟨_, rfl⟩
  obtain ⟨y, hy⟩ : ∃ y, y = min (r / 365) 3 := ⟨_, rfl⟩
  rw [← hce, ← hd, ← hr, ← hy]
  have hcentury : m = ce * 36524 + d ∧ ce ≤ 3 ∧ (d < 36524 ∨ d = 36524 ∧ ce = 3) := by omega
  have hfour : d = d / 1461 * 1461 + r ∧ d / 1461 ≤ 24 ∧ r < 1461 := by omega
  have hyear : y ≤ 3 ∧ r = y * 365 + (r - y * 365) ∧
      (r - y * 365 < 365 ∨ r - y * 365 = 365 ∧ y = 3) := by omega
  clear hce hd hr hy
  generalize r - y * 365 = rest at hyear ⊢
  generalize d / 1461 = f at hfour ⊢
  obtain ⟨hm, hce, hcentury⟩ := hcentury
  obtain ⟨hd, hf, hr⟩ := hfour
  obtain ⟨hy, hrest, hyear⟩ := hyear
  refine ⟨?_, hce, hf, hy, ?_⟩
  · rw [hm, hd, hrest, Nat.add_assoc, Nat.add_assoc]
  rcases hyear with hyear | ⟨hyear, hlast⟩
  · exact .inl hyear
  · exact .inr ⟨hyear, hlast, by omega⟩

/-- A day number is split into the days of the years before its own, and the days before it in its year. -/
theorem yearOfDay_spec (n : Nat) : 1 ≤ (yearOfDay n).1 ∧
    daysBeforeYear (yearOfDay n).1 + (yearOfDay n).2 = n ∧
      (yearOfDay n).2 < daysInYear (yearOfDay n).1 := by
  obtain ⟨ce, f, y, rest, hce, hf, hy, hrest, hsplit, hce3, hf24, hy3, hlast⟩ :=
    exists_cycle (Nat.mod_lt n (show 0 < 146097 by decide))
  obtain ⟨c, hc⟩ : ∃ c, c = n / 146097 := ⟨_, rfl⟩
  have hn : n = c * 146097 + n % 146097 := by omega
  have heq : yearOfDay n = (c * 400 + ce * 100 + f * 4 + y + 1, rest) := by
    simp only [yearOfDay, hc, hrest, hy, hf, hce]
  rw [heq]
  clear hce hf hy hrest heq hc
  have hdiv4 : (c * 400 + ce * 100 + f * 4 + y) / 4 = c * 100 + ce * 25 + f := by omega
  have hdiv100 : (c * 400 + ce * 100 + f * 4 + y) / 100 = c * 4 + ce := by omega
  have hdiv400 : (c * 400 + ce * 100 + f * 4 + y) / 400 = c := by omega
  refine ⟨Nat.le_add_left 1 _, ?_, ?_⟩
  · simp only [daysBeforeYear, Nat.add_sub_cancel, hdiv4, hdiv100, hdiv400]
    omega
  · rw [daysInYear]
    dsimp only
    rcases hlast with hlast | ⟨rfl, rfl, hlast⟩
    · split <;> omega
    · -- the last day of a leap year, of four years or of four centuries
      have hleap : isLeap (c * 400 + ce * 100 + f * 4 + 3 + 1) = true := by
        have hfour : (c * 400 + ce * 100 + f * 4 + 3 + 1) % 4 = 0 := by omega
        have hcentury : (c * 400 + ce * 100 + f * 4 + 3 + 1) % 100 ≠ 0 ∨
            (c * 400 + ce * 100 + f * 4 + 3 + 1) % 400 = 0 := by omega
        simpa [isLeap, hfour] using hcentury
      rw [if_pos hleap]
      decide

theorem daysBeforeMonth_succ (year : Nat) {month : Nat} (h : 1 ≤ month) :
    daysBeforeMonth year (month + 1) = daysBeforeMonth year month + daysInMonth year month := by
  cases month with
  | zero => cases h
  | succ m => rfl

theorem daysBeforeMonth_end (year : Nat) : daysBeforeMonth year 13 = daysInYear year := by
  simp only [daysBeforeMonth, daysInMonth, daysInYear]
  split <;> rfl

/-- The days before a day in its year are those of the months before its own, and those before it in its
month. -/
theorem monthOfDay_spec (year fuel month n : Nat) (hmonth : 1 ≤ month)
    (h : daysBeforeMonth year month + n < daysBeforeMonth year (month + fuel + 1)) :
    month ≤ (monthOfDay year fuel month n).1 ∧ (monthOfDay year fuel month n).1 ≤ month + fuel ∧
      1 ≤ (monthOfDay year fuel month n).2 ∧
      (monthOfDay year fuel month n).2 ≤ daysInMonth year (monthOfDay year fuel month n).1 ∧
      daysBeforeMonth year (monthOfDay year fuel month n).1 + ((monthOfDay year fuel month n).2 - 1) =
        daysBeforeMonth year month + n := by
  induction fuel generalizing month n with
  | zero =>
      rw [Nat.add_zero, daysBeforeMonth_succ year hmonth] at h
      simp only [monthOfDay]
      omega
  | succ fuel ih =>
      have hnext := daysBeforeMonth_succ year hmonth
      rw [monthOfDay]
      split
      · dsimp only
        omega
      · have hrest := ih (month + 1) (n - daysInMonth year month) (by omega) (by
          rw [show month + 1 + fuel + 1 = month + (fuel + 1) + 1 by omega]
          omega)
        omega

theorem ofDayNumber_eq {n year rest : Nat} (h : yearOfDay n = (year, rest)) :
    ofDayNumber n = (year, monthOfDay year 11 1 rest) := by
  rw [ofDayNumber, h]

/-- A day number is read as a day that has it. -/
theorem ofDayNumber_spec (n : Nat) : 1 ≤ (ofDayNumber n).1 ∧
    (1 ≤ (ofDayNumber n).2.1 ∧ (ofDayNumber n).2.1 ≤ 12) ∧
    (1 ≤ (ofDayNumber n).2.2 ∧ (ofDayNumber n).2.2 ≤ daysInMonth (ofDayNumber n).1 (ofDayNumber n).2.1) ∧
    dayNumber (ofDayNumber n).1 (ofDayNumber n).2.1 (ofDayNumber n).2.2 = n := by
  obtain ⟨hyear, hdays, hrest⟩ := yearOfDay_spec n
  cases h : yearOfDay n with
  | mk year rest =>
      rw [h] at hyear hdays hrest
      rw [ofDayNumber_eq h]
      have hmonth := monthOfDay_spec year 11 1 rest le_rfl (by
        rw [daysBeforeMonth_end]
        exact lt_of_eq_of_lt (Nat.zero_add _) hrest)
      generalize monthOfDay year 11 1 rest = date at hmonth ⊢
      obtain ⟨hlow, hhigh, hdate, hlast, hbefore⟩ := hmonth
      have hfirst : daysBeforeMonth year 1 = 0 := rfl
      refine ⟨hyear, ⟨hlow, hhigh⟩, ⟨hdate, hlast⟩, ?_⟩
      rw [dayNumber]
      dsimp only at hdays ⊢
      omega

/-- The years up to 9999 have the days before the start of the year after. -/
theorem year_le_iff (n : Nat) : (yearOfDay n).1 ≤ 9999 ↔ n ≤ 3652058 := by
  obtain ⟨hyear, hdays, hrest⟩ := yearOfDay_spec n
  generalize (yearOfDay n).1 = year at *
  generalize (yearOfDay n).2 = rest at *
  have hlast : daysInYear year ≤ 366 := by
    rw [daysInYear]
    split <;> omega
  have hend : year = 9999 → daysInYear year = 365 := by
    rintro rfl
    rfl
  simp only [daysBeforeYear] at hdays
  constructor
  · intro hle
    by_cases heq : year = 9999
    · have := hend heq
      omega
    · omega
  · intro hle
    omega

/-- The years of one cycle. -/
theorem yearOfDay_le {n : Nat} (h : n < 146097) : (yearOfDay n).1 ≤ 400 := by
  simp only [yearOfDay]
  omega

end Calendar

namespace Reading

open Calendar

/-- The first and the last microsecond of the calendar. -/
def firstMicros : Int := -62135596800000000

def lastMicros : Int := 253402300799999999

theorem ofMicros_eq {micros : Int} {day rest year month date : Nat}
    (hday : (micros.fdiv 86400000000 + epochDay).toNat = day) (hrest : (micros.fmod 86400000000).toNat = rest)
    (h : ofDayNumber day = (year, month, date)) : ofMicros micros = ⟨year, month, date, rest / 3600000000,
      rest / 60000000 % 60, rest / 1000000 % 60, rest % 1000000⟩ := by
  subst hday hrest
  rw [ofMicros, h]

/-- From the first day of year 1 on, the clock that is set by an instant shows the instant, and it can be a
clock's reading up to the last day of year 9999. -/
theorem ofMicros_spec {micros : Int} (h : firstMicros ≤ micros) :
    (ofMicros micros).micros = micros ∧ ((ofMicros micros).IsValid ↔ micros ≤ lastMicros) := by
  rw [firstMicros] at h
  obtain ⟨day, hday⟩ : ∃ day, (micros.fdiv 86400000000 + epochDay).toNat = day := ⟨_, rfl⟩
  obtain ⟨rest, hrest⟩ : ∃ rest, (micros.fmod 86400000000).toNat = rest := ⟨_, rfl⟩
  have hepoch : (epochDay : Int) = 719162 := rfl
  have hsplit : ((day : Int) - 719162) * 86400000000 + rest = micros ∧ rest < 86400000000 := by
    rw [Int.fdiv_eq_ediv_of_nonneg _ (by decide), hepoch] at hday
    rw [Int.fmod_eq_emod_of_nonneg _ (by decide)] at hrest
    omega
  obtain ⟨hyear, hmonth, hdate, hnumber⟩ := ofDayNumber_spec day
  have hyears : (ofDayNumber day).1 ≤ 9999 ↔ day ≤ 3652058 := by
    cases hsplit : yearOfDay day with
    | mk year rest => rw [← year_le_iff, ofDayNumber_eq hsplit, hsplit]
  cases hread : ofDayNumber day with
  | mk year later =>
      obtain ⟨month, date⟩ := later
      rw [hread] at hyear hmonth hdate hnumber hyears
      rw [ofMicros_eq hday hrest hread]
      constructor
      · simp only [Reading.micros, hnumber, hepoch]
        omega
      · simp only [IsValid, lastMicros]
        constructor
        · intro hvalid
          omega
        · intro hle
          exact ⟨⟨hyear, by omega⟩, hmonth, hdate, by omega⟩

/-- The readings of clocks lie within the calendar. -/
theorem natAbs_micros_le {r : Reading} (h : r.IsValid) : r.micros.natAbs ≤ 255000000000000000 := by
  obtain ⟨hyear, hmonth, hday, _⟩ := h
  have hmonths : ∀ m ≤ 12, daysBeforeMonth r.year m ≤ 31 * m := by
    intro m hm
    induction m with
    | zero => exact Nat.zero_le _
    | succ m ih =>
        cases m with
        | zero => exact Nat.zero_le _
        | succ m =>
            have hin := IsoText.daysInMonth_le r.year (m + 1)
            have := ih (by omega)
            rw [daysBeforeMonth_succ _ (by omega)]
            omega
  have hbefore := hmonths r.month hmonth.2
  have hin := IsoText.daysInMonth_le r.year r.month
  have hyears : daysBeforeYear r.year ≤ 3652059 := by
    simp only [daysBeforeYear]
    omega
  simp only [micros, dayNumber, epochDay]
  omega

end Reading

namespace DateTime

open Reading (firstMicros lastMicros)

/-- An instant is a date if it falls into the calendar, and the date is in UTC and has the instant. -/
theorem ofInstant?_eq_some_iff {micros : Int} {d : DateTime} : ofInstant? micros = some d ↔
    (firstMicros ≤ micros ∧ micros ≤ lastMicros) ∧ d.reading = Reading.ofMicros micros ∧ d.offset = some 0 := by
  rw [ofInstant?]
  constructor
  · intro h
    split at h
    · next hvalid =>
      cases h
      exact ⟨⟨hvalid.2, (Reading.ofMicros_spec hvalid.2).2.1 hvalid.1⟩, rfl, rfl⟩
    · cases h
  · rintro ⟨⟨hfirst, hlast⟩, hreading, hoffset⟩
    rw [dif_pos ⟨(Reading.ofMicros_spec hfirst).2.2 hlast, hfirst⟩]
    obtain ⟨reading, offset, _, _⟩ := d
    subst hreading hoffset
    rfl

theorem instant_of_ofInstant? {micros : Int} {d : DateTime} (h : ofInstant? micros = some d) :
    d.instant = micros := by
  obtain ⟨⟨hfirst, _⟩, hreading, hoffset⟩ := ofInstant?_eq_some_iff.1 h
  rw [instant, hreading, hoffset, (Reading.ofMicros_spec hfirst).1]
  exact Int.sub_zero _

theorem exists_ofInstant?_eq {micros : Int} (hfirst : firstMicros ≤ micros) (hlast : micros ≤ lastMicros) :
    ∃ d, ofInstant? micros = some d := by
  rw [ofInstant?, dif_pos ⟨(Reading.ofMicros_spec hfirst).2.2 hlast, hfirst⟩]
  exact ⟨_, rfl⟩

/-- The offsets move an instant by less than a day out of the calendar. -/
theorem natAbs_instant_le (d : DateTime) : d.instant.natAbs ≤ 260000000000000000 := by
  have hreading := Reading.natAbs_micros_le d.reading_isValid
  have hoffset : (d.offset.getD 0).natAbs < 86400000000 := by
    cases ho : d.offset with
    | none => decide
    | some o =>
        have := d.offset_isOffset o (by rw [ho]; rfl)
        rw [IsOffset] at this
        rw [Option.getD_some]
        omega
  rw [instant]
  omega

theorem natAbs_instant_lt (d : DateTime) : d.instant.natAbs < 2 ^ 60 :=
  d.natAbs_instant_le.trans_lt (by decide)

end DateTime
end RecordStore
