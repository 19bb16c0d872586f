import RecordStore.Proofs.Calendar.DayNumber
import RecordStore.Proofs.Key.Instants
import RecordStore.Proofs.Key.Spelling

/-!
Dates as keys. A date that is read from its key has the instant that is left of it after all roundings, as
long as that one is in the calendar; the last fifteen microseconds of the calendar are rounded out of it, and
three before its start into it. So a date is read back as itself if it lies between 1900 and 2039, and a key
is decoded if all dates in it can be read.
-/

namespace RecordStore

namespace Instant

open Double (unitsPerOne unitsOfIndex nearestIndex infinityIndex signed)

/-! ### Instants that can be read -/

/-- An instant whose key is read as a date: the last fifteen microseconds of the calendar are rounded out of
it, and three before its start are rounded into it. -/
def IsReadable (micros : Int) : Prop := -62135596800000003 ≤ micros ∧ micros ≤ 253402300799999984

instance (micros : Int) : Decidable (IsReadable micros) := by unfold IsReadable; infer_instance

open Reading (firstMicros lastMicros)

theorem passage_le_iff {last n : Nat} {bound : Nat} (hlast : passage last ≤ bound)
    (hnext : bound < passage (last + 1)) : passage n ≤ bound ↔ n ≤ last := by
  constructor
  · intro h
    by_contra hlt
    have hmono := passage_mono (show last + 1 ≤ n by omega)
    omega
  · intro h
    exact (passage_mono h).trans hlast

/-- An instant comes back in the calendar if it can be read. -/
theorem isReadable_iff (micros : Int) :
    IsReadable micros ↔ firstMicros ≤ comesBack micros ∧ comesBack micros ≤ lastMicros := by
  -- what comes back is monotone, so both ends are found by looking at their neighbours
  have hlast (n : Nat) : passage n ≤ 253402300799999999 ↔ n ≤ 253402300799999984 :=
    passage_le_iff (by decide +kernel) (by decide +kernel)
  have hfirst (n : Nat) : passage n ≤ 62135596800000000 ↔ n ≤ 62135596800000003 :=
    passage_le_iff (by decide +kernel) (by decide +kernel)
  have hlast := hlast micros.natAbs
  have hfirst := hfirst micros.natAbs
  simp only [IsReadable, firstMicros, lastMicros, comesBack, Double.signed_lt_zero]
  omega

/-- What comes back is at most 46 microseconds off. -/
theorem comesBack_close {micros : Int} (h : micros.natAbs ≤ 260000000000000000) :
    (comesBack micros - micros).natAbs ≤ 46 := by
  obtain ⟨hle, hge⟩ := passage_close h
  rw [comesBack, Double.signed_lt_zero]
  omega

/-- Up to the year 2039 nothing is lost. -/
theorem comesBack_eq_self {micros : Int} (h : micros.natAbs < firstLost) : comesBack micros = micros := by
  rw [comesBack, passage_eq_self h, Double.signed_natAbs]

theorem isReadable_of_lt {micros : Int} (h : micros.natAbs < firstLost) : IsReadable micros := by
  rw [firstLost] at h
  rw [IsReadable]
  omega

/-- An instant of the calendar that comes back as it was. -/
def Survives (micros : Int) : Prop :=
  firstMicros ≤ micros ∧ micros ≤ lastMicros ∧ comesBack micros = micros

instance (micros : Int) : Decidable (Survives micros) := by unfold Survives; infer_instance

theorem survives_of_lt {micros : Int} (h : micros.natAbs < firstLost) : Survives micros := by
  have hreadable := (isReadable_iff micros).1 (isReadable_of_lt h)
  rw [comesBack_eq_self h] at hreadable
  exact ⟨hreadable.1, hreadable.2, comesBack_eq_self h⟩

/-- Later than that a microsecond may be lost. -/
example : Survives (firstLost - 1) ∧ comesBack firstLost = firstLost - 1 := by decide +kernel

end Instant

/-! ### Dates that are read -/

namespace Key

open Reading (firstMicros lastMicros)

theorem yearOf_bounds {micros : Int} (hfirst : firstMicros ≤ micros) (hlast : micros ≤ lastMicros) :
    0 ≤ yearOf micros ∧ yearOf micros ≤ 10400 := by
  have hepoch : (Calendar.epochDay : Int) = 719162 := rfl
  rw [firstMicros] at hfirst
  rw [lastMicros] at hlast
  simp only [yearOf, hepoch]
  rw [Int.fdiv_eq_ediv_of_nonneg _ (by decide), Int.fdiv_eq_ediv_of_nonneg _ (by decide),
    Int.fmod_eq_emod_of_nonneg _ (by decide)]
  have hyear := Calendar.yearOfDay_le (n := ((micros / 86400000000 + 719162) % 146097).toNat) (by omega)
  omega

/-- The key of an instant is read as the date at the instant that is left of it, if that is in the
calendar. -/
theorem dateValue_millisOf {micros : Int} (h : micros.natAbs < 2 ^ 60) {v : Value} :
    dateValue (millisOf micros) = .ok v ↔
      ∃ d, DateTime.ofInstant? (Instant.comesBack micros) = some d ∧ v = .date d := by
  obtain ⟨_, hm, hc⟩ := Instant.indices_lt h
  have hback := Instant.microsOf_millisOf h
  have htruncate : ((millisOf micros).scale 1 1000).truncate = Double.signed (micros < 0)
      (Double.unitsOfIndex (Instant.clockIndex micros.natAbs) / Double.unitsPerOne) := by
    rw [Instant.clock_millisOf h, Instant.truncate_ofIndex _ hc]
  have hinfinite : (millisOf micros).isInfinite = false := by
    rw [← Bool.not_eq_true, Double.isInfinite_iff, Instant.millisOf_eq h,
      Double.index_ofIndex _ (hm.trans Double.infinityIndex_lt)]
    exact hm.ne
  have hpassage : Double.unitsOfIndex (Instant.clockIndex micros.natAbs) / Double.unitsPerOne * 1000000 ≤
      Instant.passage micros.natAbs := Nat.le_add_right _ _
  simp only [dateValue, isNaN_millisOf, hinfinite, Bool.false_eq_true, if_false, false_or, hback]
  constructor
  · intro hv
    split at hv
    · cases hv
    split at hv
    · cases hv
    split at hv
    · next d hd =>
      cases hv
      exact ⟨d, hd, rfl⟩
    · cases hv
  · rintro ⟨d, hd, rfl⟩
    obtain ⟨⟨hfirst, hlast⟩, _⟩ := DateTime.ofInstant?_eq_some_iff.1 hd
    have hyear := yearOf_bounds hfirst hlast
    -- an instant of the calendar is within reach of the clock, and so is its year
    rw [if_neg, if_neg]
    · rw [hd]
    · omega
    · rw [not_not, htruncate]
      simp only [Instant.comesBack, Double.signed_lt_zero, firstMicros, lastMicros] at hfirst hlast ⊢
      omega

theorem exists_dateValue_iff {micros : Int} (h : micros.natAbs < 2 ^ 60) :
    (∃ v, dateValue (millisOf micros) = .ok v) ↔ Instant.IsReadable micros := by
  rw [Instant.isReadable_iff]
  constructor
  · rintro ⟨v, hv⟩
    obtain ⟨d, hd, _⟩ := (dateValue_millisOf h).1 hv
    exact (DateTime.ofInstant?_eq_some_iff.1 hd).1
  · rintro ⟨hfirst, hlast⟩
    obtain ⟨d, hd⟩ := DateTime.exists_ofInstant?_eq hfirst hlast
    exact ⟨.date d, (dateValue_millisOf h).2 ⟨d, hd, rfl⟩⟩

/-- No date has the negative zero for its milliseconds. -/
theorem orderedWord_millisOf {micros : Int} (h : micros.natAbs < 2 ^ 60) :
    orderedWord (millisOf micros) = signedWord (millisOf micros) := by
  obtain ⟨_, hm, _⟩ := Instant.indices_lt h
  have hlt := hm.trans Double.infinityIndex_lt
  refine orderedWord_eq_signedWord fun hzero => ?_
  rw [Double.isZero_iff, Instant.millisOf_eq h, Double.index_ofIndex _ hlt] at hzero
  rw [Instant.millisOf_eq h, Double.isNegative_ofIndex _ hlt, decide_eq_false_iff_not]
  intro hneg
  have hone : Instant.millisIndex 1 ≤ Instant.millisIndex micros.natAbs := Instant.millisIndex_mono (by omega)
  have hpos : 0 < Instant.millisIndex 1 := by decide +kernel
  omega

theorem spell_date_millisOf (d : DateTime) :
    (date (millisOf d.instant)).spell = encode (date (millisOf d.instant)) := by
  rw [spell, encode, encodeDouble, orderedWord_millisOf d.natAbs_instant_lt]

end Key

namespace Value

mutual

/-- All dates in a key, at any depth of its arrays, have a property. -/
def AllDates (P : DateTime → Prop) : Value → Prop
  | .date d => P d
  | .list items => AllDatesIn P items
  | .tuple items => AllDatesIn P items
  | _ => True

def AllDatesIn (P : DateTime → Prop) : List Value → Prop
  | [] => True
  | v :: rest => AllDates P v ∧ AllDatesIn P rest

end

/-- A key is read back if all dates in it can be read. -/
def IsReadable (v : Value) : Prop := v.AllDates fun d => Instant.IsReadable d.instant

end Value

namespace Key

theorem exists_readAll_cons_iff {k : Key} {ks : List Key} :
    (∃ items, readAll (k :: ks) = .ok items) ↔ (∃ v, k.read = .ok v) ∧ ∃ items, readAll ks = .ok items := by
  constructor
  · rintro ⟨items, h⟩
    obtain ⟨v, hv, h⟩ := bind_eq_ok_iff.1 h
    obtain ⟨rest, hrest, _⟩ := bind_eq_ok_iff.1 h
    exact ⟨⟨v, hv⟩, rest, hrest⟩
  · rintro ⟨⟨v, hv⟩, rest, hrest⟩
    exact ⟨v :: rest, by rw [readAll, hv, ok_bind, hrest, ok_bind]⟩

theorem exists_read_array_iff {ks : List Key} :
    (∃ v, (array ks).read = .ok v) ↔ ∃ items, readAll ks = .ok items := by
  constructor
  · rintro ⟨v, h⟩
    obtain ⟨items, hitems, _⟩ := map_eq_ok_iff.1 h
    exact ⟨items, hitems⟩
  · rintro ⟨items, hitems⟩
    exact ⟨.list items, by rw [read, hitems, map_ok]⟩

mutual

/-- What a key is encoded as spells a key, the same one up to negative zeros, and that is read if all dates in
it can be. -/
theorem exists_spell_encode : ∀ {v : Value} {depth : Nat} {k : Key}, check depth v = .ok () →
    convert v = .ok k → ∃ l : Key, l.spell = encode k ∧
      ((∃ w, l.read = .ok w) ↔ v.AllDates fun d => Instant.IsReadable d.instant)
  | .int n, _, k, _, hk => by
    simp only [convert] at hk
    split at hk
    · next x hx =>
      cases hk
      exact ⟨number x.withoutNegativeZero, rfl, iff_of_true ⟨_, rfl⟩ trivial⟩
    · cases hk
  | .float x, _, k, _, hk => by
    cases hk
    exact ⟨number x.withoutNegativeZero, rfl, iff_of_true ⟨_, rfl⟩ trivial⟩
  | .text t, _, k, _, hk => by
    cases hk
    exact ⟨text t, rfl, iff_of_true ⟨_, rfl⟩ trivial⟩
  | .bytes b, _, k, _, hk => by
    cases hk
    exact ⟨bytes b, rfl, iff_of_true ⟨_, rfl⟩ trivial⟩
  | .date d, _, k, _, hk => by
    cases hk
    exact ⟨_, spell_date_millisOf d, exists_dateValue_iff d.natAbs_instant_lt⟩
  | .list items, depth, k, hc, hk => by
    simp only [check] at hc
    split at hc
    · cases hc
    · simp only [convert] at hk
      obtain ⟨ks, hks, rfl⟩ := map_eq_ok_iff.1 hk
      obtain ⟨ls, hls, hread⟩ := exists_spellAll_encodeAll hc hks
      exact ⟨array ls, by rw [spell, hls, encode], exists_read_array_iff.trans hread⟩
  | .tuple items, depth, k, hc, hk => by
    simp only [check] at hc
    split at hc
    · cases hc
    · simp only [convert] at hk
      obtain ⟨ks, hks, rfl⟩ := map_eq_ok_iff.1 hk
      obtain ⟨ls, hls, hread⟩ := exists_spellAll_encodeAll hc hks
      exact ⟨array ls, by rw [spell, hls, encode], exists_read_array_iff.trans hread⟩
  | .null, _, _, hc, _ | .bool _, _, _, hc, _ | .set _, _, _, hc, _ | .dict _, _, _, hc, _
  | .ellipsis, _, _, hc, _ | .descriptor _, _, _, hc, _ | .keyRange _, _, _, hc, _
  | .bare _, _, _, hc, _ | .keyed _ _, _, _, hc, _ | .callable _, _, _, hc, _ => nomatch hc

theorem exists_spellAll_encodeAll : ∀ {items : List Value} {depth : Nat} {ks : List Key},
    checkAll depth items = .ok () → convertAll items = .ok ks → ∃ ls, spellAll ls = encodeAll ks ∧
      ((∃ read, readAll ls = .ok read) ↔ Value.AllDatesIn (fun d => Instant.IsReadable d.instant) items)
  | [], _, ks, _, hk => by
    cases hk
    exact ⟨[], rfl, iff_of_true ⟨_, rfl⟩ trivial⟩
  | v :: rest, depth, ks, hc, hk => by
    simp only [checkAll] at hc
    simp only [convertAll] at hk
    obtain ⟨_, hv, hrest⟩ := bind_eq_ok_iff.1 hc
    obtain ⟨k, hconv, h⟩ := bind_eq_ok_iff.1 hk
    obtain ⟨ks, hks, h⟩ := bind_eq_ok_iff.1 h
    cases h
    obtain ⟨l, hl, hread⟩ := exists_spell_encode hv hconv
    obtain ⟨ls, hls, hreads⟩ := exists_spellAll_encodeAll hrest hks
    exact ⟨l :: ls, by rw [spellAll, hl, hls, encodeAll],
      exists_readAll_cons_iff.trans (and_congr hread hreads)⟩

end

/-- A key is decoded if all dates in it can be read. -/
theorem exists_decode_encodeKey_iff {v : Value} {b : Bytes} (h : v.encodeKey = .ok b) :
    (∃ w, decode b = .ok w) ↔ v.IsReadable := by
  obtain ⟨k, hk, rfl⟩ := Value.encodeKey_eq_ok_iff.1 h
  obtain ⟨hcheck, hconvert⟩ := ofValue_eq_ok_iff.1 hk
  obtain ⟨l, hl, hread⟩ := exists_spell_encode hcheck hconvert
  rw [Value.IsReadable, ← hread, ← hl]
  refine exists_congr fun w => decode_eq_ok_iff.trans ⟨?_, fun h => ⟨l, rfl, h⟩⟩
  rintro ⟨m, hm, h⟩
  rwa [← spell_injective hm]

theorem spell_of_encodeKey_date {d : DateTime} {b : Bytes} (h : (Value.date d).encodeKey = .ok b) :
    (date (millisOf d.instant)).spell = b := by
  obtain ⟨k, hk, rfl⟩ := Value.encodeKey_eq_ok_iff.1 h
  obtain ⟨_, hconvert⟩ := ofValue_eq_ok_iff.1 hk
  cases hconvert
  exact spell_date_millisOf d

/-- The key of a date is decoded as the date in UTC at the instant that comes back. -/
theorem decode_date_iff {d : DateTime} {b : Bytes} (h : (Value.date d).encodeKey = .ok b) {v : Value} :
    decode b = .ok v ↔ ∃ e, DateTime.ofInstant? (Instant.comesBack d.instant) = some e ∧ v = .date e := by
  rw [← dateValue_millisOf d.natAbs_instant_lt, ← spell_of_encodeKey_date h, decode_eq_ok_iff]
  constructor
  · rintro ⟨l, hl, h⟩
    rwa [spell_injective hl] at h
  · exact fun h => ⟨_, rfl, h⟩

/-- What is decoded is in UTC. -/
theorem eq_date_of_decode {d : DateTime} {b : Bytes} (h : (Value.date d).encodeKey = .ok b) {v : Value}
    (hv : decode b = .ok v) : ∃ e : DateTime, v = .date e ∧ e.offset = some 0 ∧
      e.instant = Instant.comesBack d.instant := by
  obtain ⟨e, he, rfl⟩ := (decode_date_iff h).1 hv
  exact ⟨e, rfl, (DateTime.ofInstant?_eq_some_iff.1 he).2.2, DateTime.instant_of_ofInstant? he⟩

theorem decode_same_instant_iff {d : DateTime} {b : Bytes} (h : (Value.date d).encodeKey = .ok b) :
    (∃ e : DateTime, decode b = .ok (.date e) ∧ e.offset = some 0 ∧ e.instant = d.instant) ↔
      Instant.Survives d.instant := by
  constructor
  · rintro ⟨e, hdecode, _, hinstant⟩
    obtain ⟨f, hf, heq⟩ := (decode_date_iff h).1 hdecode
    cases heq
    obtain ⟨⟨hfirst, hlast⟩, _⟩ := DateTime.ofInstant?_eq_some_iff.1 hf
    have hback : Instant.comesBack d.instant = d.instant :=
      (DateTime.instant_of_ofInstant? hf).symm.trans hinstant
    rw [hback] at hfirst hlast
    exact ⟨hfirst, hlast, hback⟩
  · rintro ⟨hfirst, hlast, hback⟩
    obtain ⟨e, he⟩ := DateTime.exists_ofInstant?_eq hfirst hlast
    refine ⟨e, (decode_date_iff h).2 ⟨e, ?_, rfl⟩, (DateTime.ofInstant?_eq_some_iff.1 he).2.2,
      DateTime.instant_of_ofInstant? he⟩
    rw [hback]
    exact he

/-- Of two dates that have one key the same instant comes back. -/
theorem comesBack_eq_of_encodeKey {d e : DateTime} {b : Bytes} (hd : (Value.date d).encodeKey = .ok b)
    (he : (Value.date e).encodeKey = .ok b) : Instant.comesBack d.instant = Instant.comesBack e.instant := by
  have hmillis : millisOf d.instant = millisOf e.instant :=
    Key.date.inj (spell_injective ((spell_of_encodeKey_date hd).trans (spell_of_encodeKey_date he).symm))
  rw [← Instant.microsOf_millisOf d.natAbs_instant_lt, hmillis, Instant.microsOf_millisOf e.natAbs_instant_lt]

theorem exists_encodeKey_date {d : DateTime} (h : d.offset.isSome = true) :
    ∃ b, (Value.date d).encodeKey = .ok b :=
  ⟨_, Value.encodeKey_eq_ok_iff.2 ⟨_, Value.ofValue_date h, rfl⟩⟩

end Key

end RecordStore
