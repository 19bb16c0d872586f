import RecordStore.Calendar.IsoText
import RecordStore.Proofs.Number.Digits

/-!
Dates read back. Each part of the text has a fixed number of digits, so the reader takes the parts
one after the other; the offset survives unless it is shorter than a second.
-/

namespace RecordStore
namespace IsoText

/-! ### Fixed numbers of digits -/

theorem length_padded {w n : Nat} (hw : 0 < w) (h : n < 10 ^ w) : (padded w n).length = w := by
  have hle := (Decimal.length_digitsOf_le_iff hw).2 h
  rw [padded, List.length_append, List.length_replicate]
  omega

theorem isDigit_of_mem_padded {w n : Nat} {c : Char} (h : c ∈ padded w n) : c.isDigit = true := by
  rcases List.mem_append.1 h with h | h
  · rw [List.eq_of_mem_replicate h]
    rfl
  · exact Decimal.isDigit_of_mem_digitsOf h

theorem takeDigits_padded {w n : Nat} (hw : 0 < w) (h : n < 10 ^ w) (rest : List Char) :
    takeDigits w (padded w n ++ rest) = some (n, rest) := by
  have hlength := length_padded hw h
  have htake : (padded w n ++ rest).take w = padded w n := List.take_left' hlength
  have hdrop : (padded w n ++ rest).drop w = rest := List.drop_left' hlength
  have hdigits : (padded w n).all Char.isDigit = true :=
    List.all_eq_true.2 fun c hc => isDigit_of_mem_padded hc
  simp only [takeDigits, htake, hdrop, hlength, hdigits, and_self, if_true]
  rw [padded, Decimal.ofDigits_zeros_append, Decimal.ofDigits_digitsOf]

theorem padded_ne_nil (w n : Nat) : padded w n ≠ [] := by
  rw [padded, Ne, List.append_eq_nil_iff]
  exact fun h => Decimal.digitsOf_ne_nil n h.2

theorem exists_padded_eq_cons (w n : Nat) :
    ∃ c cs, padded w n = c :: cs ∧ c.isDigit = true := by
  obtain ⟨c, cs, h⟩ := List.exists_cons_of_ne_nil (padded_ne_nil w n)
  exact ⟨c, cs, h, isDigit_of_mem_padded (h ▸ List.mem_cons_self)⟩

/-! ### Clocks -/

/-- A fraction of a second is read back to the microsecond. -/
theorem readFraction_padded (clock : Clock) {micro : Nat} (h : micro ≤ 999999) :
    readFraction clock (padded 6 micro) = some { clock with micro := micro, leftover := false } := by
  have hlength : (padded 6 micro).length = 6 := length_padded (by decide) (by omega)
  have htake := takeDigits_padded (w := 6) (n := micro) (by decide) (by omega) []
  rw [List.append_nil] at htake
  simp only [readFraction, hlength, htake, show min 6 6 = 6 from rfl, Option.bind_eq_bind,
    Option.bind_some, Nat.sub_self, Nat.pow_zero, Nat.mul_one]
  rfl

/-- The text of a clock after its minutes: the seconds and a fraction of one. -/
theorem readSecond_text {clock : Clock} {second micro : Nat} (hc : clock.micro = 0)
    (hl : clock.leftover = false) (hs : second ≤ 59) (hm : micro ≤ 999999) :
    readSecond clock true (padded 2 second ++ fraction micro) =
      some { clock with second := second, micro := micro } := by
  rw [readSecond, takeDigits_padded (by decide) (by omega)]
  cases clock
  simp only at hc hl
  subst hc hl
  by_cases h0 : micro = 0
  · rw [h0, fraction, if_pos rfl]
    rfl
  · obtain ⟨c, cs, hcs, _⟩ := exists_padded_eq_cons 6 micro
    have hread := fun clock => readFraction_padded clock hm
    rw [fraction, if_neg h0]
    rw [hcs] at hread ⊢
    simp only [Option.bind_eq_bind, Option.bind_some]
    exact hread _

theorem readMinute_colon {clock : Clock} {minute : Nat} (h : minute ≤ 59) {more : List Char}
    (hmore : more ≠ []) :
    readMinute clock true (padded 2 minute ++ ':' :: more) =
      readSecond { clock with minute := minute } true more := by
  obtain ⟨c, cs, rfl⟩ := List.exists_cons_of_ne_nil hmore
  rw [readMinute, takeDigits_padded (by decide) (by omega)]
  rfl

theorem readMinute_end {clock : Clock} {minute : Nat} (h : minute ≤ 59) :
    readMinute clock true (padded 2 minute) = some { clock with minute := minute } := by
  have htake := takeDigits_padded (w := 2) (n := minute) (by decide) (by omega) []
  rw [List.append_nil] at htake
  rw [readMinute, htake]
  rfl

theorem readClock_colon {hour : Nat} (h : hour ≤ 23) {more : List Char} (hmore : more ≠ []) :
    readClock (padded 2 hour ++ ':' :: more) = readMinute { hour := hour } true more := by
  obtain ⟨c, cs, rfl⟩ := List.exists_cons_of_ne_nil hmore
  rw [readClock, takeDigits_padded (by decide) (by omega)]
  rfl

theorem append_ne_nil_left {as bs : List Char} (h : as ≠ []) : as ++ bs ≠ [] :=
  fun h' => h (List.append_eq_nil_iff.1 h').1

/-- The text of a time of day. -/
def clockText (hour minute second micro : Nat) : List Char :=
  padded 2 hour ++ ':' :: (padded 2 minute ++ ':' :: (padded 2 second ++ fraction micro))

theorem readClock_clockText {hour minute second micro : Nat} (hh : hour ≤ 23) (hm : minute ≤ 59)
    (hs : second ≤ 59) (hu : micro ≤ 999999) :
    readClock (clockText hour minute second micro) =
      some { hour := hour, minute := minute, second := second, micro := micro } := by
  rw [clockText, readClock_colon hh (append_ne_nil_left (padded_ne_nil _ _)),
    readMinute_colon hm (append_ne_nil_left (padded_ne_nil _ _)), readSecond_text rfl rfl hs hu]

/-- What divides a time of day from its offset. -/
def isSign (c : Char) : Bool := c == '+' || c == '-' || c == 'Z'

theorem isSign_of_isDigit {c : Char} (h : c.isDigit = true) : isSign c = false := by
  rw [isSign, Bool.or_eq_false_iff, Bool.or_eq_false_iff, beq_eq_false_iff_ne, beq_eq_false_iff_ne,
    beq_eq_false_iff_ne]
  refine ⟨⟨?_, ?_⟩, ?_⟩
  all_goals
    rintro rfl
    exact absurd h (by decide)

theorem isSign_of_mem_clockText {hour minute second micro : Nat} {c : Char}
    (h : c ∈ clockText hour minute second micro) : isSign c = false := by
  have hpadded {w n : Nat} (hc : c ∈ padded w n) : isSign c = false :=
    isSign_of_isDigit (isDigit_of_mem_padded hc)
  simp only [clockText, List.mem_append, List.mem_cons] at h
  rcases h with h | rfl | h | rfl | h | h
  · exact hpadded h
  · rfl
  · exact hpadded h
  · rfl
  · exact hpadded h
  · rw [fraction] at h
    split at h
    · cases h
    · rcases List.mem_cons.1 h with rfl | h
      · rfl
      · exact hpadded h

theorem takeWhile_clockText (hour minute second micro : Nat) (zone : List Char)
    (hz : ∀ c ∈ zone.head?, isSign c = true) :
    (clockText hour minute second micro ++ zone).takeWhile (!isSign ·) =
        clockText hour minute second micro ∧
      (clockText hour minute second micro ++ zone).dropWhile (!isSign ·) = zone := by
  have hclock : ∀ c ∈ clockText hour minute second micro, (!isSign c) = true := by
    intro c hc
    rw [isSign_of_mem_clockText hc]
    rfl
  rw [List.takeWhile_append_of_pos hclock, List.dropWhile_append_of_pos hclock]
  cases zone with
  | nil => exact ⟨List.append_nil _, rfl⟩
  | cons c cs =>
      have hc : isSign c = true := hz c rfl
      simp [hc]

/-! ### Offsets -/

/-- The offset outlives being written: it is zero or at least a second long. -/
def IsKeptOffset (offset : Int) : Prop := offset.natAbs < 1000000 → offset = 0

/-- An offset as it outlives being written: one that is shorter than a second is lost. -/
def keptOffset (offset : Int) : Int := if offset.natAbs < 1000000 then 0 else offset

theorem keptOffset_of_isKept {offset : Int} (h : IsKeptOffset offset) : keptOffset offset = offset := by
  unfold keptOffset
  split
  · next hshort => exact (h hshort).symm
  · rfl

theorem isKeptOffset_keptOffset (offset : Int) : IsKeptOffset (keptOffset offset) := by
  unfold keptOffset
  split
  · exact fun _ => rfl
  · next hlong => exact fun hshort => absurd hshort hlong

/-- The text of an offset after its sign. -/
def zoneText (seconds micro : Nat) : List Char :=
  padded 2 (seconds / 3600) ++ ':' :: (padded 2 (seconds / 60 % 60) ++
    (if seconds % 60 = 0 ∧ micro = 0 then []
      else ':' :: (padded 2 (seconds % 60) ++ fraction micro)))

theorem offsetText_eq (offset : Int) :
    offsetText offset = (if offset < 0 then '-' else '+') ::
      zoneText (offset.natAbs / 1000000) (offset.natAbs % 1000000) := by
  simp only [offsetText, zoneText, List.append_assoc, List.cons_append]

theorem readClock_zoneText (seconds micro : Nat) (hs : seconds < 86400) (hm : micro ≤ 999999) :
    readClock (zoneText seconds micro) =
      some { hour := seconds / 3600, minute := seconds / 60 % 60, second := seconds % 60,
             micro := micro } := by
  rw [zoneText, readClock_colon (by omega) (append_ne_nil_left (padded_ne_nil _ _))]
  by_cases h0 : seconds % 60 = 0 ∧ micro = 0
  · rw [if_pos h0, List.append_nil, readMinute_end (by omega), h0.1, h0.2]
  · rw [if_neg h0, readMinute_colon (by omega) (append_ne_nil_left (padded_ne_nil _ _)),
      readSecond_text rfl rfl (by omega) hm]

theorem readTime_none {hour minute second micro : Nat} (hh : hour ≤ 23) (hm : minute ≤ 59)
    (hs : second ≤ 59) (hu : micro ≤ 999999) :
    readTime (clockText hour minute second micro) =
      some ({ hour := hour, minute := minute, second := second, micro := micro }, none) := by
  obtain ⟨htake, hdrop⟩ := takeWhile_clockText hour minute second micro [] nofun
  rw [List.append_nil] at htake hdrop
  simp only [isSign] at htake hdrop
  simp only [readTime, htake, hdrop, readClock_clockText hh hm hs hu, Option.bind_eq_bind,
    Option.bind_some, Bool.false_eq_true, if_false]

theorem readTime_offset {hour minute second micro : Nat} {offset : Int} (hh : hour ≤ 23)
    (hm : minute ≤ 59) (hs : second ≤ 59) (hu : micro ≤ 999999) (ho : IsOffset offset) :
    readTime (clockText hour minute second micro ++ offsetText offset) =
      some ({ hour := hour, minute := minute, second := second, micro := micro },
        some (keptOffset offset)) := by
  have hlt : offset.natAbs < 86400000000 := by
    rw [IsOffset] at ho
    omega
  have hzone := readClock_zoneText (offset.natAbs / 1000000) (offset.natAbs % 1000000)
    (by omega) (by omega)
  have hseconds : (((offset.natAbs / 1000000 / 3600 : Nat) : Int) * 3600 +
      ((offset.natAbs / 1000000 / 60 % 60 : Nat) : Int) * 60 +
      ((offset.natAbs / 1000000 % 60 : Nat) : Int)) = ((offset.natAbs / 1000000 : Nat) : Int) := by
    omega
  have hsize : (if ((offset.natAbs / 1000000 : Nat) : Int) = 0 then 0
      else ((offset.natAbs / 1000000 : Nat) : Int) * 1000000 +
        ((offset.natAbs % 1000000 : Nat) : Int)) = ((keptOffset offset).natAbs : Int) := by
    unfold keptOffset
    split <;> split <;> omega
  have hsign : (keptOffset offset).natAbs = if offset < 0 then -keptOffset offset
      else keptOffset offset := by
    unfold keptOffset
    split <;> split <;> omega
  rw [offsetText_eq]
  by_cases hneg : offset < 0
  · rw [if_pos hneg]
    obtain ⟨htake, hdrop⟩ := takeWhile_clockText hour minute second micro
      ('-' :: zoneText (offset.natAbs / 1000000) (offset.natAbs % 1000000))
      (by rintro c ⟨⟩; rfl)
    simp only [isSign] at htake hdrop
    simp only [readTime, htake, hdrop, readClock_clockText hh hm hs hu, Option.bind_eq_bind,
      Option.bind_some]
    change (readClock _).bind _ = _
    simp only [hzone, Option.bind_some, hseconds, hsize, Bool.false_eq_true, if_false, if_true]
    rw [hsign, if_pos hneg, Int.neg_neg]
  · rw [if_neg hneg]
    obtain ⟨htake, hdrop⟩ := takeWhile_clockText hour minute second micro
      ('+' :: zoneText (offset.natAbs / 1000000) (offset.natAbs % 1000000))
      (by rintro c ⟨⟩; rfl)
    simp only [isSign] at htake hdrop
    simp only [readTime, htake, hdrop, readClock_clockText hh hm hs hu, Option.bind_eq_bind,
      Option.bind_some]
    change (readClock _).bind _ = _
    simp only [hzone, Option.bind_some, hseconds, hsize, Bool.false_eq_true, if_false,
      if_neg (show ¬ ('+' = '-') by decide)]
    rw [hsign, if_neg hneg]

/-! ### Dates with times -/

/-- The text of a day, and what follows it. -/
def dayText (year month day : Nat) (rest : List Char) : List Char :=
  padded 4 year ++ '-' :: (padded 2 month ++ '-' :: (padded 2 day ++ rest))

theorem length_dayText {year month day : Nat} (hy : year ≤ 9999) (hm : month ≤ 12)
    (hd : day ≤ 31) (rest : List Char) :
    (dayText year month day rest).length = 10 + rest.length := by
  simp only [dayText, List.length_append, List.length_cons,
    length_padded (w := 4) (n := year) (by decide) (by omega),
    length_padded (w := 2) (n := month) (by decide) (by omega),
    length_padded (w := 2) (n := day) (by decide) (by omega)]
  omega

theorem drop_dayText {year month day : Nat} (hy : year ≤ 9999) (hm : month ≤ 12) (hd : day ≤ 31)
    (rest : List Char) : (dayText year month day rest).drop 10 = rest := by
  have hassoc : dayText year month day rest =
      (padded 4 year ++ '-' :: (padded 2 month ++ '-' :: padded 2 day)) ++ rest := by
    simp only [dayText, List.append_assoc, List.cons_append]
  have hlength := length_dayText hy hm hd rest
  rw [hassoc, List.length_append] at hlength
  rw [hassoc]
  exact List.drop_left' (by omega)

theorem separatorPlace_dayText {year month day : Nat} (hy : year ≤ 9999) (hm : month ≤ 12)
    (hd : day ≤ 31) (rest : List Char) : separatorPlace (dayText year month day rest) = 10 := by
  have hlength := length_padded (w := 4) (n := year) (by decide) (by omega)
  obtain ⟨c, cs, hc, hdigit⟩ := exists_padded_eq_cons 2 month
  have hdash : (dayText year month day rest)[4]? = some '-' := by
    rw [dayText, List.getElem?_append_right (by omega), hlength]
    rfl
  have hweek : ((dayText year month day rest)[5]? == some 'W') = false := by
    rw [dayText, List.getElem?_append_right (by omega), hlength, hc, beq_eq_false_iff_ne]
    intro h
    cases h
    exact absurd hdigit (by decide)
  simp only [separatorPlace, length_dayText hy hm hd, hdash, hweek]
  rw [if_neg (by omega)]
  rfl

theorem readDate_dayText {year month day : Nat} (hy : year ≤ 9999) (hm : month ≤ 12)
    (hd : day ≤ 31) (rest : List Char) :
    readDate 10 (dayText year month day rest) = some (year, month, day) := by
  obtain ⟨c, cs, hc, hdigit⟩ := exists_padded_eq_cons 2 month
  have hweek : ¬(padded 2 month ++ '-' :: (padded 2 day ++ rest)).head? = some 'W' := by
    rw [hc]
    rintro ⟨⟩
    exact absurd hdigit (by decide)
  rw [readDate, dayText, takeDigits_padded (by decide) (by omega)]
  simp only [Option.bind_eq_bind, Option.bind_some, List.head?_cons, beq_self_eq_true, if_true,
    List.tail_cons, if_neg hweek, takeDigits_padded (w := 2) (n := month) (by decide) (by omega),
    takeDigits_padded (w := 2) (n := day) (by decide) (by omega)]

theorem text_eq (separator : Char) (d : DateTime) :
    text separator d = dayText d.reading.year d.reading.month d.reading.day
      (separator :: (clockText d.reading.hour d.reading.minute d.reading.second d.reading.micro ++
        d.offset.elim [] offsetText)) := by
  simp only [text, dayText, clockText, List.append_assoc, List.cons_append]

theorem daysInMonth_le (year month : Nat) : Calendar.daysInMonth year month ≤ 31 := by
  unfold Calendar.daysInMonth
  split
  · split <;> omega
  all_goals omega

/-- A date and time as it outlives being written. -/
def kept (d : DateTime) : DateTime where
  reading := d.reading
  offset := d.offset.map keptOffset
  reading_isValid := d.reading_isValid
  offset_isOffset o ho := by
    obtain ⟨o', ho', rfl⟩ := Option.mem_map.1 ho
    unfold keptOffset
    split
    · decide
    · exact d.offset_isOffset o' ho'

theorem isKeptOffset_kept {d : DateTime} : ∀ o ∈ (kept d).offset, IsKeptOffset o := by
  intro o ho
  obtain ⟨o', _, rfl⟩ := Option.mem_map.1 ho
  exact isKeptOffset_keptOffset o'

theorem kept_of_isKept {d : DateTime} (h : ∀ o ∈ d.offset, IsKeptOffset o) : kept d = d := by
  obtain ⟨r, offset, hr, ho⟩ := d
  have hoffset : offset.map keptOffset = offset := by
    cases offset with
    | none => rfl
    | some o => exact congrArg some (keptOffset_of_isKept (h o rfl))
  unfold kept
  congr

/-- A date is read back as it outlives being written. -/
theorem read_text_kept (d : DateTime) : read (text 'T' d) = .ok (kept d) := by
  have hkept : ∀ o ∈ d.offset.map keptOffset, IsOffset o := (kept d).offset_isOffset
  obtain ⟨r, offset, hr, ho⟩ := d
  have hdays := daysInMonth_le r.year r.month
  obtain ⟨⟨_, hy⟩, ⟨_, hmo⟩, ⟨_, hday⟩, hh, hmi, hs, hu⟩ := id hr
  have htime : readTime (clockText r.hour r.minute r.second r.micro ++ offset.elim [] offsetText) =
      some ({ hour := r.hour, minute := r.minute, second := r.second, micro := r.micro },
        offset.map keptOffset) := by
    cases offset with
    | none => rw [Option.elim_none, List.append_nil, readTime_none hh hmi hs hu, Option.map_none]
    | some o => exact readTime_offset hh hmi hs hu (ho o rfl)
  have hassemble : assemble (r.year, r.month, r.day)
      { hour := r.hour, minute := r.minute, second := r.second, micro := r.micro }
        (offset.map keptOffset) = .ok (kept ⟨r, offset, hr, ho⟩) := by
    rw [assemble, dif_pos hkept]
    exact dif_pos hr
  rw [text_eq]
  simp only [read, separatorPlace_dayText hy hmo (hday.trans hdays),
    length_dayText hy hmo (hday.trans hdays), readDate_dayText hy hmo (hday.trans hdays),
    drop_dayText hy hmo (hday.trans hdays), htime, hassemble]
  exact if_neg (by omega)

/-- A date whose offset outlives being written is read back. -/
theorem read_text {d : DateTime} (h : ∀ o ∈ d.offset, IsKeptOffset o) :
    read (text 'T' d) = .ok d := by
  rw [read_text_kept, kept_of_isKept h]

theorem offset_of_assemble {date : Nat × Nat × Nat} {clock : Clock} {offset : Option Int}
    {d : DateTime} (h : assemble date clock offset = .ok d) : d.offset = offset := by
  simp only [assemble] at h
  split at h
  · split at h
    · cases h
      rfl
    · split at h
      · cases h
      split at h
      · cases h
      split at h
      · cases h
      split at h
      · cases h
      split at h <;> cases h
  · cases h

theorem isKeptOffset_of_readTime {cs : List Char} {clock : Clock} {offset : Option Int}
    (h : readTime cs = some (clock, offset)) : ∀ o ∈ offset, IsKeptOffset o := by
  simp only [readTime, Option.bind_eq_bind, Option.bind_eq_some_iff] at h
  obtain ⟨_, _, h⟩ := h
  split at h
  · split at h
    · cases h
    · cases h
      exact nofun
  · split at h
    · cases h
    · cases h
      rintro o ⟨⟩ _
      rfl
  · obtain ⟨zone, _, h⟩ := Option.bind_eq_some_iff.1 h
    split at h
    · cases h
    · cases h
      rintro o ⟨⟩ hlt
      split at hlt <;> split at hlt <;> omega

/-- An offset that was read outlives being written again. -/
theorem isKeptOffset_of_read {cs : List Char} {d : DateTime} (h : read cs = .ok d) :
    ∀ o ∈ d.offset, IsKeptOffset o := by
  simp only [read] at h
  split at h
  · cases h
  split at h
  · cases h
  split at h
  · rw [offset_of_assemble h]
    exact nofun
  · split at h
    · cases h
    · next htime =>
      rw [offset_of_assemble h]
      exact isKeptOffset_of_readTime htime

end IsoText
end RecordStore
