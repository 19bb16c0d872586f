import RecordStore.Proofs.Cursor.Interleaving
import RecordStore.Proofs.Key.Dates

/-!
Cursors over dates. A cursor decodes the keys of every row that it comes to, so it can be opened if the dates
in those of the first one can be read.
-/

namespace RecordStore

namespace Cursor

/-- A cursor can be put on a row if its keys can be decoded, and its record read unless the cursor is for keys
only. -/
theorem moveTo_fst_eq_ok_iff (cur : Cursor) (c : Collection) (row : Entry) :
    (cur.moveTo c row).1 = .ok () ↔ (∃ k, Key.decode row.1 = .ok k) ∧ (∃ p, Key.decode row.2 = .ok p) ∧
      (cur.keyOnly = true ∨ ∃ v, c.load row.2 = .ok v) := by
  unfold moveTo
  cases Key.decode row.1 with
  | error f => simp
  | ok k =>
      cases Key.decode row.2 with
      | error f => simp
      | ok p =>
          dsimp only
          unfold showValue
          cases hkeys : cur.keyOnly with
          | true => simp
          | false => cases c.load row.2 <;> simp

end Cursor

namespace CursorRef

variable {e seen : Engine} {r : StoreRef} {c : Collection} {query : Value} {range : Option (KeyRange Value)}
  {row : Entry} {v w : Value}

/-- A cursor can be opened if all dates in the keys of the row that it comes to can be read, and the record,
unless it is for keys only. -/
theorem exists_start_iff (hread : r.collection e = .ok c seen) (hrange : KeyRange.ofQuery query = .ok range)
    {source : Option String} {dir : Direction} {keyOnly : Bool}
    (hrow : (Cursor.start source (KeyRange.conditionsOf range) dir keyOnly).fetch c 0 = some row)
    (hv : v.encodeKey = .ok row.1) (hw : w.encodeKey = .ok row.2) :
    (∃ cur, start r source query (.text dir.name) keyOnly e = .ok cur seen) ↔
      v.IsReadable ∧ w.IsReadable ∧ (keyOnly = true ∨ ∃ u, c.load row.2 = .ok u) := by
  have hstep : (Cursor.start source (KeyRange.conditionsOf range) dir keyOnly).step c 1 =
      (Cursor.start source (KeyRange.conditionsOf range) dir keyOnly).moveTo c row := by
    rw [Cursor.step, hrow]
  have hmove := Cursor.moveTo_fst_eq_ok_iff (Cursor.start source (KeyRange.conditionsOf range) dir keyOnly)
    c row
  rw [Key.exists_decode_encodeKey_iff hv, Key.exists_decode_encodeKey_iff hw] at hmove
  rw [start_run hread hrange, hstep]
  refine Iff.trans ?_ hmove
  cases ((Cursor.start source (KeyRange.conditionsOf range) dir keyOnly).moveTo c row).1 with
  | error f =>
      refine iff_of_false ?_ nofun
      rintro ⟨cur, h⟩
      cases h
  | ok u => exact iff_of_true ⟨_, rfl⟩ rfl

end CursorRef

/-! ### What is left of dates -/

/-- Which dates survive as keys. Every date with an offset has a key. It is decoded as the same instant in UTC
exactly if the roundings leave it as it was, which they do between 1900 and 2039; it is decoded at all if what
is left of it lies in the calendar, and then it is at most 46 microseconds off. Another date with the same key
is at most 92 microseconds away, and is the same instant if both survive. And a cursor can be opened over
dates exactly if those in the keys of the row that it comes to first can be read. -/
theorem date_keys_survive_iff (d : DateTime) (hoffset : d.offset.isSome = true) :
    ∃ b, (Value.date d).encodeKey = .ok b ∧
      ((∃ e : DateTime, Key.decode b = .ok (.date e) ∧ e.offset = some 0 ∧ e.instant = d.instant) ↔
        Instant.Survives d.instant) ∧
      (d.instant.natAbs < Instant.firstLost → Instant.Survives d.instant) ∧
      ((∃ v, Key.decode b = .ok v) ↔ Instant.IsReadable d.instant) ∧
      (∀ v, Key.decode b = .ok v → ∃ e : DateTime, v = .date e ∧ e.offset = some 0 ∧
        (e.instant - d.instant).natAbs ≤ 46) ∧
      (∀ e : DateTime, (Value.date e).encodeKey = .ok b → (d.instant - e.instant).natAbs ≤ 92 ∧
        (Instant.Survives d.instant → Instant.Survives e.instant → d.instant = e.instant)) ∧
      ∀ (e seen : Engine) (r : StoreRef) (c : Collection) (source : Option String) (query : Value)
        (range : Option (KeyRange Value)) (dir : Direction) (keyOnly : Bool) (row : Entry) (v w : Value),
        r.collection e = .ok c seen → KeyRange.ofQuery query = .ok range →
          (Cursor.start source (KeyRange.conditionsOf range) dir keyOnly).fetch c 0 = some row →
            v.encodeKey = .ok row.1 → w.encodeKey = .ok row.2 →
              ((∃ cur, CursorRef.start r source query (.text dir.name) keyOnly e = .ok cur seen) ↔
                v.IsReadable ∧ w.IsReadable ∧ (keyOnly = true ∨ ∃ u, c.load row.2 = .ok u)) := by
  obtain ⟨b, hb⟩ := Key.exists_encodeKey_date hoffset
  refine ⟨b, hb, Key.decode_same_instant_iff hb, Instant.survives_of_lt, Key.exists_decode_encodeKey_iff hb,
    ?_, ?_, fun _ _ _ _ _ _ _ _ _ _ _ _ hread hrange hrow hv hw =>
      CursorRef.exists_start_iff hread hrange hrow hv hw⟩
  · intro v hv
    obtain ⟨e, rfl, hutc, hinstant⟩ := Key.eq_date_of_decode hb hv
    refine ⟨e, rfl, hutc, ?_⟩
    rw [hinstant]
    exact Instant.comesBack_close d.natAbs_instant_le
  · intro e he
    have hsame := Key.comesBack_eq_of_encodeKey hb he
    have hclose := Instant.comesBack_close d.natAbs_instant_le
    have hclose' := Instant.comesBack_close e.natAbs_instant_le
    refine ⟨by omega, fun hd he => ?_⟩
    rwa [hd.2.2, he.2.2] at hsame

/-! ### The last moment of the calendar -/

/-- The last date there is, and the one before it. -/
def DateTime.lastMoment : DateTime :=
  ⟨⟨9999, 12, 31, 23, 59, 59, 999999⟩, some 0, by decide, Value.isOffset_utc⟩

def DateTime.lastButOne : DateTime :=
  ⟨⟨9999, 12, 31, 23, 59, 59, 999998⟩, some 0, by decide, Value.isOffset_utc⟩

/-- The key of both. -/
def Bytes.lastKey : Bytes := [32, 194, 236, 206, 250, 67, 251, 128, 0]

/-- The key of a date of our time. -/
def Bytes.leapDayKey : Bytes := [32, 194, 120, 223, 75, 197, 96, 0, 4]

/-- A collection of days, in the upgrade that makes it. -/
def StoreRef.days : StoreRef := ⟨0, "days", ⟨none, false⟩⟩

/-- That upgrade, once a record is stored under a date. -/
def Engine.dayKept (d : DateTime) : Engine :=
  Engine.initial.afterCalls [.beginOpen "path" (.int 1) none,
    .createCollection 0 (.text "days") .null (.bool false), .put .days (.text "day") (.date d)]

/-- A date of our time is read back with the same instant on another clock, and a cursor can be opened over
it. -/
theorem date_keys_survive_leapDay :
    (∃ b e, (Value.date Value.leapDayAhead).encodeKey = .ok b ∧ Key.decode b = .ok (.date e) ∧
      e.offset = some 0 ∧ e.instant = Value.leapDayAhead.instant) ∧
    ∃ cur, CursorRef.start .days none .null (.text "next") false (.dayKept Value.leapDay) =
      .ok cur (.dayKept Value.leapDay) := by
  obtain ⟨b, hb, hback, hsurvives, _, _, _, hcursors⟩ := date_keys_survive_iff Value.leapDayAhead rfl
  constructor
  · obtain ⟨e, he⟩ := hback.2 (hsurvives (by decide))
    exact ⟨b, e, hb, he⟩
  · have hkey : (Value.date Value.leapDay).encodeKey = .ok .leapDayKey :=
      eq_ok_of_toOption (by decide +kernel)
    have hread := StoreRef.collection_run_drafted (r := .days) (e := .dayKept Value.leapDay)
      (by decide +kernel)
    have hloads : ((StoreRef.days.drafted (.dayKept Value.leapDay)).load
        .leapDayKey).toOption.isSome = true := by decide +kernel
    obtain ⟨u, hload⟩ := Option.isSome_iff_exists.1 hloads
    have hreadable : Instant.IsReadable Value.leapDay.instant := Instant.isReadable_of_lt (by decide)
    exact (hcursors _ _ _ _ none .null none .next false (.leapDayKey, .leapDayKey) _ _ hread rfl
      (by decide +kernel) hkey hkey).2 ⟨hreadable, hreadable, .inr ⟨u, eq_ok_of_toOption hload⟩⟩

/-- At the end of the calendar two dates have one key, which cannot be read, and no cursor can be opened over
it. -/
theorem not_date_keys_survive_lastMoment :
    (¬∀ d : DateTime, d.offset.isSome = true → ∃ b e, (Value.date d).encodeKey = .ok b ∧
      Key.decode b = .ok (.date e) ∧ e.instant = d.instant) ∧
    (¬∀ (d e : DateTime) (b : Bytes), d.offset.isSome = true → e.offset.isSome = true →
      (Value.date d).encodeKey = .ok b → (Value.date e).encodeKey = .ok b → d.instant = e.instant) ∧
    ¬∃ cur, CursorRef.start .days none .null (.text "next") false (.dayKept .lastMoment) =
      .ok cur (.dayKept .lastMoment) := by
  have hlost : ¬Instant.IsReadable DateTime.lastMoment.instant := by decide
  have hkey : (Value.date .lastMoment).encodeKey = .ok .lastKey := eq_ok_of_toOption (by decide +kernel)
  refine ⟨fun h => ?_, fun h => ?_, fun h => ?_⟩
  · obtain ⟨b, e, hb, hdecode, _⟩ := h .lastMoment rfl
    exact hlost ((Key.exists_decode_encodeKey_iff hb).1 ⟨_, hdecode⟩)
  · have hkey' : (Value.date .lastButOne).encodeKey = .ok .lastKey :=
      eq_ok_of_toOption (by decide +kernel)
    exact absurd (h _ _ _ rfl rfl hkey hkey') (by decide)
  · have hread := StoreRef.collection_run_drafted (r := .days) (e := .dayKept .lastMoment) (by decide +kernel)
    have hrow : (Cursor.start none [] .next false).fetch (StoreRef.days.drafted (.dayKept .lastMoment)) 0 =
        some (.lastKey, .lastKey) := by decide +kernel
    have hrange : KeyRange.ofQuery .null = .ok none := rfl
    exact hlost ((CursorRef.exists_start_iff hread hrange hrow hkey hkey).1 h).1

end RecordStore
