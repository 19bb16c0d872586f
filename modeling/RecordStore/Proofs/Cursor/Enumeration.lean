import RecordStore.Proofs.Engine.Reading
import RecordStore.Proofs.Query.Running
import RecordStore.Script.Report

/-!
What a cursor shows from its first row to its last one. It stops once on each row of its range, or once
on each key, in ascending or in descending order, and counts and point reads tell of the same rows. The
induction is on the rows that a cursor still has before it. What carries it is that the cursor stands on
the first of them and shows it, while a new look at the source finds just the others beyond it.
-/

namespace RecordStore

open Effect

/-! ### Keys without dates -/

/-- Bytes are those of a key, and are read back as it. -/
def Bytes.Encodes (b : Bytes) (v : Value) : Prop := Key.decode b = .ok v ∧ v.encodeKey = .ok b

theorem Value.encodeKey_keyNorm {v : Value} {b : Bytes} (h : v.encodeKey = .ok b) :
    v.keyNorm.encodeKey = .ok b := by
  obtain ⟨k, hk, rfl⟩ := Value.encodeKey_eq_ok_iff.1 h
  obtain ⟨hcheck, hconvert⟩ := Key.ofValue_eq_ok_iff.1 hk
  obtain ⟨hcheck', l, hl, hencode⟩ := Key.encode_keyNorm hcheck hconvert
  exact Value.encodeKey_eq_ok_iff.2 ⟨l, Key.ofValue_eq_ok_iff.2 ⟨hcheck', hl⟩, hencode⟩

/-- What the bytes of a key without dates are read back as has the same bytes. -/
theorem Bytes.encodes_of_decode {b : Bytes} {k : Value} (h : b.IsDateFree) (hk : Key.decode b = .ok k) :
    b.Encodes k := by
  obtain ⟨v, hv, hencode⟩ := h
  have hnorm : k = v.keyNorm := Except.ok.inj (hk.symm.trans (Key.decode_encodeKey hv hencode))
  exact ⟨hk, hnorm ▸ Value.encodeKey_keyNorm hencode⟩

/-! ### The order of a direction -/

/-- Rows in the order of a direction, given all of them and those of distinct keys in ascending order. -/
def Direction.arrange {α : Type} (d : Direction) (all distinct : List α) : List α :=
  let rows := if d.isUnique then distinct else all
  if d.isForward then rows else rows.reverse

/-- The rows before a cursor are, whatever its direction, those in ascending order or their reverse. -/
theorem Scan.remaining_none (cs : List Condition) (d : Direction) (rows : List Entry) :
    remaining cs d none rows = d.arrange (selected cs rows) (selected cs (firstPerKey rows)) := by
  cases d <;>
    simp [remaining, ordered, selected, Direction.arrange, Direction.isUnique, Direction.isForward,
      List.filter_reverse]

/-- What a scan selects is told by the rows alone. -/
theorem Scan.Selects.eq {rows E F : List Entry} {range : Option (KeyRange Value)}
    {descending distinct : Bool} (hE : Selects rows range descending distinct E)
    (hF : Selects rows range descending distinct F) : E = F := by
  have : Std.Antisymm fun a b : Entry =>
      (if descending then Entry.lt b a else Entry.lt a b) = true := ⟨fun a b hab hba => by
    have hself : Entry.lt a a = true := by
      cases descending with
      | false => exact Entry.isOrder.trans a b a hab hba
      | true => exact Entry.isOrder.trans a b a hba hab
    rw [Entry.isOrder.irrefl] at hself
    cases hself⟩
  have : Std.Irrefl fun a b : Entry =>
      (if descending then Entry.lt b a else Entry.lt a b) = true := ⟨fun a ha => by
    rw [Entry.isOrder.irrefl, ite_self] at ha
    cases ha⟩
  exact hE.sorted.eq_of_mem_iff hF.sorted fun {e} => (hE.mem_iff e).trans (hF.mem_iff e).symm

namespace Cursor

variable {origin cur next : Cursor} {c : Collection} {row : Entry} {rest : List Entry}

/-! ### What a cursor shows -/

/-- A cursor shows a row: its keys and, unless the cursor is for keys only, the record that is stored
under the second one. -/
structure Shows (cur : Cursor) (c : Collection) (keyOnly : Bool) (row : Entry) : Prop where
  isDone : cur.isDone = false
  key : row.1.Encodes cur.key
  primaryKey : row.2.Encodes cur.primaryKey
  value : if keyOnly then cur.value = .null else c.view row.2 = some cur.value

/-- The keys in a row have no dates, and the row leads to a record. -/
structure LeadsOn (c : Collection) (row : Entry) : Prop where
  key : row.1.IsDateFree
  primaryKey : row.2.IsDateFree
  value : (c.view row.2).isSome = true

theorem LeadsOn.view_of_load (h : LeadsOn c row) {v : Value} (hv : c.load row.2 = .ok v) :
    c.view row.2 = some v := by
  obtain ⟨w, hw⟩ := Option.isSome_iff_exists.1 h.value
  rw [Collection.load_of_view hw] at hv
  cases hv
  exact hw

theorem LeadsOn.canShow (h : LeadsOn c row) : c.CanShow row := by
  obtain ⟨k, hk, hencode⟩ := h.key
  obtain ⟨p, hp, hencode'⟩ := h.primaryKey
  obtain ⟨v, hv⟩ := Option.isSome_iff_exists.1 h.value
  exact ⟨⟨_, Key.decode_encodeKey hk hencode⟩, ⟨_, Key.decode_encodeKey hp hencode'⟩, v,
    Collection.load_of_view hv⟩

theorem exists_showValue_eq (cur : Cursor) (c : Collection) (record : Bytes) :
    ∃ v, (cur.showValue c record).2 = { cur with value := v } := by
  unfold showValue
  split
  · exact ⟨cur.value, rfl⟩
  · split
    · exact ⟨cur.value, rfl⟩
    · next v _ => exact ⟨v, rfl⟩

/-- A move changes no more than where the cursor is and what it shows. -/
theorem exists_moveTo_eq (cur : Cursor) (c : Collection) (row : Entry) : ∃ k p v,
    (cur.moveTo c row).2 = { cur with position := some row, key := k, primaryKey := p, value := v } := by
  unfold moveTo
  split
  · exact ⟨cur.key, cur.primaryKey, cur.value, rfl⟩
  · next k _ =>
    split
    · exact ⟨k, cur.primaryKey, cur.value, rfl⟩
    · next p _ =>
      obtain ⟨v, hv⟩ := exists_showValue_eq
        { cur with position := some row, key := k, primaryKey := p } c row.2
      exact ⟨k, p, v, hv⟩

/-- A cursor that is moved to a row and does not fail shows the row. -/
theorem shows_of_moveTo (h : cur.moveTo c row = (.ok (), next)) (hrow : LeadsOn c row)
    (hdone : cur.isDone = false) (hvalue : cur.keyOnly = true → cur.value = .null) :
    next.Shows c cur.keyOnly row := by
  unfold moveTo at h
  split at h
  · cases h
  · next k hk =>
    split at h
    · cases h
    · next p hp =>
      have hkey := Bytes.encodes_of_decode hrow.key hk
      have hprimaryKey := Bytes.encodes_of_decode hrow.primaryKey hp
      unfold showValue at h
      cases hkeyOnly : cur.keyOnly with
      | true =>
          rw [hkeyOnly, if_pos rfl] at h
          cases h
          exact ⟨hdone, hkey, hprimaryKey, hvalue hkeyOnly⟩
      | false =>
          rw [hkeyOnly, if_neg Bool.false_ne_true] at h
          split at h
          · cases h
          · next v hv =>
            cases h
            exact ⟨hdone, hkey, hprimaryKey, hrow.view_of_load hv⟩

/-- After a step that does not fail, a cursor shows the row that it stands on. -/
theorem shows_of_step {count : Nat} (h : cur.step c count = (.ok (), next)) (hrow : LeadsOn c row)
    (hdone : cur.isDone = false) (hvalue : cur.keyOnly = true → cur.value = .null)
    (hstands : next.StandsOn c (some row)) : next.Shows c cur.keyOnly row := by
  unfold step at h
  split at h
  · cases h
    cases hstands.1
  · next other _ =>
    -- the row that was fetched is the one that the cursor stands on
    obtain ⟨k, p, v, hmoved⟩ := exists_moveTo_eq cur c other
    rw [h] at hmoved
    have hposition : next.position = some other := congrArg position hmoved
    obtain rfl : other = row := Option.some.inj (hposition.symm.trans hstands.2.1)
    exact shows_of_moveTo h hrow hdone hvalue

end Cursor

/-! ### Walking on -/

section Walk

variable {e : Engine} {store : StoreRef} {c : Collection} {origin cur : Cursor} {rest : List Entry}

/-- From the first of the rows that are left, a cursor walks over all of them and is done. -/
theorem Action.walk_run (hread : store.collection e = .ok c e)
    (hrows : (c.rows origin.source).Pairwise fun a b => Entry.lt a b = true)
    (hleads : ∀ row ∈ origin.visits c, Cursor.LeadsOn c row) (hcur : Cursor.IsAt origin cur c rest)
    (hshows : ∀ row ∈ rest.head?, cur.Shows c origin.keyOnly row) {limit : Nat}
    (hlimit : rest.length ≤ limit) :
    ∃ stops last, walk limit ⟨store, cur⟩ e = .ok (.ok stops, last) e ∧ last.cursor.isDone = true ∧
      List.Forall₂ (fun stop row => Cursor.Shows stop c origin.keyOnly row) stops rest := by
  induction rest generalizing cur limit with
  | nil =>
      refine ⟨[], ⟨store, cur⟩, ?_, hcur.stands, .nil⟩
      cases limit with
      | zero => rfl
      | succ n =>
          have hdone : cur.isDone = true := hcur.stands
          rw [walk, if_pos hdone]
          rfl
  | cons row rest ih =>
      obtain ⟨n, rfl⟩ := Nat.exists_eq_add_one_of_ne_zero (Nat.ne_of_gt (Nat.zero_lt_of_lt hlimit))
      have hrow : cur.Shows c origin.keyOnly row := hshows row rfl
      obtain ⟨next, hstep, hnext⟩ := Cursor.exists_step hrows (fun r hr => (hleads r hr).canShow)
        hcur Nat.one_pos
      have hvalue : cur.keyOnly = true → cur.value = .null := by
        intro hkeyOnly
        have hshown := hrow.value
        rw [← hcur.same.keyOnly, if_pos hkeyOnly] at hshown
        exact hshown
      -- the step ends on the next of the rows that are left, and shows it
      have hshows' : ∀ other ∈ rest.head?, next.Shows c origin.keyOnly other := by
        intro other hother
        have hstands : next.StandsOn c rest.head? := hnext.stands
        rw [Option.mem_def.1 hother] at hstands
        have hmem := hnext.suffix.subset (List.mem_of_mem_head? hother)
        exact hcur.same.keyOnly ▸
          Cursor.shows_of_step hstep (hleads other hmem) hrow.isDone hvalue hstands
      obtain ⟨stops, last, hwalk, hlast, hstops⟩ :=
        ih hnext hshows' (Nat.le_of_succ_le_succ hlimit)
      refine ⟨cur :: stops, last, ?_, hlast, .cons hrow hstops⟩
      rw [walk, if_neg (by rw [hrow.isDone]; exact Bool.false_ne_true),
        bind_of_ok (CursorRef.step_run hread (Nat.zero_le _)), hstep]
      exact (bind_of_ok hwalk _).trans rfl

end Walk

/-! ### Cursors and point reads over one range -/

/-- What is read at the first of some rows, and null if there is none. -/
def ReadsFirst (reads : Entry → Value → Prop) : List Entry → Value → Prop
  | [], v => v = .null
  | row :: _, v => reads row v

section Ranges

variable {e seen : Engine} {r : StoreRef} {c : Collection} {source : Option String} {query : Value}
  {range : Option (KeyRange Value)}

/-- Opened on a range and moved on until it is done, a cursor stops on some rows, in their order and
once on each, and shows them; nothing is changed once the source has been read. -/
def CursorRef.Enumerates (r : StoreRef) (source : Option String) (query : Value) (d : Direction)
    (keyOnly : Bool) (e seen : Engine) (c : Collection) (rows : List Entry) : Prop :=
  ∃ first, start r source query (.text d.name) keyOnly e = .ok first seen ∧
    ∀ limit, rows.length ≤ limit → ∃ stops last,
      Action.walk limit first seen = .ok (.ok stops, last) seen ∧ last.cursor.isDone = true ∧
        List.Forall₂ (fun stop row => Cursor.Shows stop c keyOnly row) stops rows

/-- A cursor over rows that all can be shown shows them in the order of its direction. -/
theorem CursorRef.enumerates_of_leadsOn (hread : r.collection e = .ok c seen)
    (hrange : KeyRange.ofQuery query = .ok range)
    (hrows : (c.rows source).Pairwise fun a b => Entry.lt a b = true)
    (hleads : ∀ row ∈ c.rows source, Cursor.LeadsOn c row) (d : Direction) (keyOnly : Bool) :
    Enumerates r source query d keyOnly e seen c (d.arrange
      (Scan.selected (KeyRange.conditionsOf range) (c.rows source))
      (Scan.selected (KeyRange.conditionsOf range) (Scan.firstPerKey (c.rows source)))) := by
  rw [← Scan.remaining_none]
  have hvisits : ∀ row ∈ (Cursor.start source (KeyRange.conditionsOf range) d keyOnly).visits c,
      Cursor.LeadsOn c row := fun row hrow => hleads row
    (((Scan.selects_remaining hrows range d).mem_iff row).1 hrow).1
  obtain ⟨cur, hstep, hcur⟩ := Cursor.exists_step_start source (KeyRange.conditionsOf range) d keyOnly
    fun row hrow => (hvisits row hrow).canShow
  have hshows : ∀ row ∈ ((Cursor.start source (KeyRange.conditionsOf range) d keyOnly).visits c).head?,
      cur.Shows c keyOnly row := by
    intro row hrow
    have hstands := hcur.stands
    rw [Option.mem_def.1 hrow] at hstands
    exact Cursor.shows_of_step hstep (hvisits row (List.mem_of_mem_head? hrow)) rfl (fun _ => rfl) hstands
  refine ⟨⟨r, cur⟩, ?_, fun limit hlimit =>
    Action.walk_run (StoreRef.collection_again hread) hrows hvisits hcur hshows hlimit⟩
  rw [start_run hread hrange, hstep]
  rfl

end Ranges

namespace Collection

variable {c : Collection} {source : Option String}

theorem exists_get_eq (hleads : ∀ row ∈ c.rows source, Cursor.LeadsOn c row) (cs : List Condition) :
    ∃ v, c.get source cs = .ok v ∧
      ReadsFirst (fun row v => c.view row.2 = some v) (Scan.selected cs (c.rows source)) v := by
  unfold get first?
  cases hselected : Scan.selected cs (c.rows source) with
  | nil => exact ⟨.null, rfl, rfl⟩
  | cons row rest =>
      have hrow : row ∈ Scan.selected cs (c.rows source) := hselected ▸ List.mem_cons_self
      obtain ⟨v, hv⟩ := Option.isSome_iff_exists.1 (hleads row (List.mem_of_mem_filter hrow)).value
      exact ⟨v, load_of_view hv, hv⟩

theorem exists_getKey_eq (hleads : ∀ row ∈ c.rows source, Cursor.LeadsOn c row) (cs : List Condition) :
    ∃ k, c.getKey source cs = .ok k ∧
      ReadsFirst (fun row k => row.2.Encodes k) (Scan.selected cs (c.rows source)) k := by
  unfold getKey first?
  cases hselected : Scan.selected cs (c.rows source) with
  | nil => exact ⟨.null, rfl, rfl⟩
  | cons row rest =>
      have hrow : row ∈ Scan.selected cs (c.rows source) := hselected ▸ List.mem_cons_self
      obtain ⟨k, hk⟩ := (hleads row (List.mem_of_mem_filter hrow)).canShow.primaryKey
      exact ⟨k, hk, Bytes.encodes_of_decode (hleads row (List.mem_of_mem_filter hrow)).primaryKey hk⟩

/-- In a consistent collection every row leads to a record. -/
theorem leadsOn_of_isConsistent (hc : c.IsConsistent fun _ => False)
    (hdates : ∀ row ∈ c.rows source, row.1.IsDateFree ∧ row.2.IsDateFree) :
    ∀ row ∈ c.rows source, Cursor.LeadsOn c row := fun row hrow =>
  ⟨(hdates row hrow).1, (hdates row hrow).2,
    (isSome_view_iff hc).2 (exists_mem_records_of_mem_rows hc hrow)⟩

end Collection

namespace CursorRef

variable {e seen : Engine} {r : StoreRef} {c : Collection} {source : Option String} {query : Value}
  {range : Option (KeyRange Value)}

/-- Cursors and point reads agree. In a consistent collection without dates in the keys of a source,
cursors of every direction stop once on each row of a range: forward in ascending order of both keys or,
for distinct keys, on the row with the lowest key of a record of each index key, and backward in the
exact reverse. What is counted in the range are the rows of the forward cursor, and what is read there
is the record or the key of a record of the first of them. -/
theorem enumerates_selected_rows (hread : r.collection e = .ok c seen)
    (hc : c.IsConsistent fun _ => False)
    (hdates : ∀ row ∈ c.rows source, row.1.IsDateFree ∧ row.2.IsDateFree)
    (hrange : KeyRange.ofQuery query = .ok range) :
    ∃ all distinct, Scan.Selects (c.rows source) range false false all ∧
      Scan.Selects (c.rows source) range false true distinct ∧
      (∀ d keyOnly, Enumerates r source query d keyOnly e seen c (d.arrange all distinct)) ∧
      r.count source query e = .ok all.length seen ∧
      (source = none → query.isNull = false → ∃ v, r.get query e = .ok v seen ∧
        ReadsFirst (fun row v => c.view row.2 = some v) all v) ∧
      ∀ name spec, source = some name →
        (∃ v, IndexRef.get ⟨r, name, spec⟩ query e = .ok v seen ∧
          ReadsFirst (fun row v => c.view row.2 = some v) all v) ∧
        ∃ k, IndexRef.getKey ⟨r, name, spec⟩ query e = .ok k seen ∧
          ReadsFirst (fun row k => row.2.Encodes k) all k := by
  have hrows := Collection.ascending_rows hc source nofun
  have hleads := Collection.leadsOn_of_isConsistent hc hdates
  have hselects (d : Direction) := Scan.selects_remaining hrows range d
  simp only [Scan.remaining_none] at hselects
  obtain ⟨v, hget, hv⟩ := Collection.exists_get_eq hleads (KeyRange.conditionsOf range)
  obtain ⟨k, hgetKey, hk⟩ := Collection.exists_getKey_eq hleads (KeyRange.conditionsOf range)
  refine ⟨_, _, hselects .next, hselects .nextUnique, enumerates_of_leadsOn hread hrange hrows hleads,
    StoreRef.count_run hread hrange source, ?_, ?_⟩
  · rintro rfl hquery
    refine ⟨v, ?_, hv⟩
    rw [StoreRef.get_run hread hrange hquery, hget]
    rfl
  · rintro name spec rfl
    refine ⟨⟨v, ?_, hv⟩, k, ?_, hk⟩
    · rw [IndexRef.get_run hread hrange, hget]
      rfl
    · rw [IndexRef.getKey_run hread hrange, hgetKey]
      rfl

/-- Over an index with two equal keys out of three, every cursor can be walked to its end: without regard
for distinct keys it stops three times, else twice. -/
theorem enumerates_selected_rows_numbers : ∃ r e seen all distinct,
    StoreRef.collection r e = .ok Query.numbers seen ∧
      Scan.Selects (Query.numbers.rows (some "value")) none false false all ∧ all.length = 3 ∧
      Scan.Selects (Query.numbers.rows (some "value")) none false true distinct ∧ distinct.length = 2 ∧
      ∀ d keyOnly, Enumerates r (some "value") .null d keyOnly e seen Query.numbers
        (d.arrange all distinct) := by
  have hopen : (Query.numbersKept.engine.connection 0).isClosed = false := by decide +kernel
  have hname : "numbers" ∈ (Query.numbersKept.engine.connection 0).collectionNames := by decide +kernel
  obtain ⟨tx, _, b, _, _, hb⟩ := Action.exists_begin_reading hopen (by decide +kernel) hname
  have hpath : (Query.numbersKept.engine.connection 0).path = "path" := by decide +kernel
  obtain ⟨seen, hread⟩ : ∃ seen,
      StoreRef.collection ⟨tx, "numbers", ⟨none, false⟩⟩ b = .ok Query.numbers seen := by
    refine ⟨b.rework tx (.reading (some (Query.numbersKept.engine.store "path"))), ?_⟩
    unfold StoreRef.collection
    rw [bind_of_ok (Action.read_of_unread hb.unread), hb.store, hpath]
    rfl
  have hsource : (Query.oneAfter (.text "value") 0).source? Query.numbers = some (some "value") := by
    decide +kernel
  have hdates : ∀ row ∈ Query.numbers.rows (some "value"), row.1.IsDateFree ∧ row.2.IsDateFree :=
    (Query.canRead_oneAfter 0 hsource (by decide +kernel)).dates
  have hrange : KeyRange.ofQuery .null = .ok none := rfl
  have hascending := Collection.ascending_rows Query.isConsistent_numbers (some "value") nofun
  have hselects (d : Direction) := Scan.selects_remaining hascending none d
  obtain ⟨all, distinct, hall, hdistinct, hcursors, _⟩ :=
    enumerates_selected_rows hread Query.isConsistent_numbers hdates hrange
  refine ⟨_, _, _, all, distinct, hread, hall, ?_, hdistinct, ?_, hcursors⟩
  · rw [hall.eq (hselects .next)]
    decide +kernel
  · rw [hdistinct.eq (hselects .nextUnique)]
    decide +kernel

end CursorRef
end RecordStore
