import RecordStore.Proofs.Engine.Opened
import RecordStore.Proofs.Engine.Runs
import RecordStore.Proofs.Key.Decoding
import RecordStore.Proofs.Query.Traversal

/-!
Queries that only read. A query without a rule runs in a reading transaction, which sees one store
throughout; what it yields is told by the rows of its source alone, and it changes no store.
-/

namespace RecordStore

open Effect

namespace Action

variable {e : Engine} {name : String}

/-- A transaction has begun that reads one collection of the store of a connection, and has seen
nothing yet. -/
structure HasBegunReading (e b : Engine) (db tx : Nat) (name : String) : Prop where
  unread : b.HasUnderWay tx (.reading none)
  mode : (b.transaction tx).mode = .readonly
  scope : (b.transaction tx).scope = [name]
  store : b.store (b.connection (b.transaction tx).connection).path = e.store (e.connection db).path
  stores : b.stores = e.stores
  notices : b.notices = e.notices

theorem exists_begin_reading {db : Nat} (hopen : (e.connection db).isClosed = false)
    (hidle : (e.connection db).work = .idle) (hname : name ∈ (e.connection db).collectionNames) :
    ∃ tx d b, openTransaction db (.text name) (.text "readonly") e = .ok tx d ∧
      begin tx d = .ok () b ∧ HasBegunReading e b db tx name := by
  obtain ⟨tx, d, hmade, hopened, hbegin⟩ :=
    exists_begun_of_idle (.inl rfl) hopen hidle (.inl rfl) hname
  have hopen' : (d.connection (d.transaction tx).connection).isClosed = false := by
    rw [hmade.transaction, hmade.connection]
    exact hopen
  have hmode : (d.transaction tx).mode = .readonly := by rw [hmade.transaction]
  have hbegun := transaction_begun hmade.lt
  have hunread := hasUnderWay_begun hmade.lt hopen'
  rw [if_pos hmode] at hunread
  refine ⟨tx, d, d.begun tx, hopened, hbegin, hunread, ?_, ?_, ?_, hmade.stores, hmade.notices⟩
  · rw [hbegun, hmade.transaction]
  · rw [hbegun, hmade.transaction]
  · have hpath : ((d.begun tx).connection (d.transaction tx).connection).path =
        (d.connection (d.transaction tx).connection).path :=
      Engine.connection_setConnection_congr Connection.path (by rfl) _
    rw [hbegun]
    dsimp only
    rw [hpath, hmade.transaction, hmade.connection]
    exact hmade.store _

end Action

/-- Bytes are those of a key without dates. -/
def Bytes.IsDateFree (b : Bytes) : Prop := ∃ v : Value, v.IsDateFree ∧ v.encodeKey = .ok b

namespace Collection

variable {c : Collection} {source : Option String} {row : Entry}

/-- Each row of a source leads to a record. -/
theorem exists_mem_records_of_mem_rows (h : c.IsConsistent fun _ => False) (hrow : row ∈ c.rows source) :
    ∃ text, (row.2, text) ∈ c.records := by
  cases source with
  | none =>
      obtain ⟨r, hr, rfl⟩ := List.mem_map.1 hrow
      exact ⟨r.2, hr⟩
  | some name =>
      rw [rows] at hrow
      cases hi : c.index? name with
      | none =>
          rw [hi] at hrow
          cases hrow
      | some i =>
          rw [hi] at hrow
          obtain ⟨text, _, _, hmem, _⟩ :=
            ((h.indexed i (List.mem_of_find?_eq_some hi) id).mem_iff row).1 hrow
          exact ⟨text, hmem⟩

theorem canShow_of_mem_rows (h : c.IsConsistent fun _ => False) (hrow : row ∈ c.rows source)
    (hkey : row.1.IsDateFree) (hprimaryKey : row.2.IsDateFree) : c.CanShow row := by
  obtain ⟨k, hk, hencode⟩ := hkey
  obtain ⟨p, hp, hencode'⟩ := hprimaryKey
  refine ⟨⟨_, Key.decode_encodeKey hk hencode⟩, ⟨_, Key.decode_encodeKey hp hencode'⟩, ?_⟩
  obtain ⟨v, hv⟩ := Option.isSome_iff_exists.1
    ((isSome_view_iff h).2 (exists_mem_records_of_mem_rows h hrow))
  exact ⟨v, load_of_view hv⟩

end Collection

instance (w : Work) : Decidable (w = .idle) :=
  match w with
  | .idle => isTrue rfl
  | .reading _ => isFalse (by rintro ⟨⟩)
  | .writing _ => isFalse (by rintro ⟨⟩)

namespace QueryResult

/-- The number that is all of a result. -/
def number? : QueryResult → Option Int
  | .results [.int n] => some n
  | _ => none

theorem eq_of_number? {r : QueryResult} {n : Int} (h : r.number? = some n) :
    r = .results [.int n] := by
  unfold number? at h
  split at h
  · cases h
    rfl
  · cases h

end QueryResult

namespace Query

theorem isForward_direction (q : Query) : (!q.direction.isForward) = q.descending := by
  unfold direction
  cases q.descending <;> cases q.distinct <;> rfl

theorem isUnique_direction (q : Query) : q.direction.isUnique = q.distinct := by
  unfold direction
  cases q.descending <;> cases q.distinct <;> rfl

/-- What a query looks at in rows that can be shown. -/
theorem exists_looksAt (q : Query) {c : Collection} {rows : List Entry}
    (h : ∀ row ∈ rows, c.CanShow row) : ∃ vs, List.Forall₂ (q.LooksAt c) rows vs := by
  induction rows with
  | nil => exact ⟨[], .nil⟩
  | cons row rest ih =>
      obtain ⟨vs, hvs⟩ := ih fun other hother => h other (List.mem_cons_of_mem row hother)
      have hrow := h row List.mem_cons_self
      have hv : ∃ v, q.LooksAt c row v := by
        unfold LooksAt
        split
        · exact hrow.key
        · exact hrow.value
      obtain ⟨v, hv⟩ := hv
      exact ⟨v :: vs, .cons hv hvs⟩

variable {e : Engine} {q : Query} {c : Collection} {store : StoreRef} {source : Option String}
  {query : Value} {range : Option (KeyRange Value)}

/-- The source that a query scans, if it is there: the collection itself or one of its indexes. -/
def source? (q : Query) (c : Collection) : Option (Option String) :=
  if q.index.isNull then some none else (c.index? q.index.display).map fun i => some i.name

/-- The cursor of a query before its first row. -/
def cursor (q : Query) (source : Option String) (range : Option (KeyRange Value)) : Cursor :=
  .start source (KeyRange.conditionsOf range) q.direction (q.state == .keys)

/-- Obtains the source that a query scans. -/
def obtainSource (q : Query) (store : StoreRef) : Action (Option String) :=
  if q.index.isNull then pure none else do
    let i ← store.openIndex q.index
    pure (some i.name)

/-- What is left of a query once its source is obtained. -/
def scanSource (q : Query) (store : StoreRef) (query : Value) (source : Option String) :
    Action QueryResult := do
  if q.state = .count then return .count (← store.count source query)
  let r ← CursorRef.start store source query (.text q.direction.name) (q.state == .keys)
  let rows := (← store.collection).rows source
  return .results (← q.traverse (rows.length + 1 + extraVisits) r 0)

theorem scan_eq (q : Query) (tx : Nat) (query : Value) : q.scan tx query = (do
    let store ← Action.openCollection tx q.collection
    q.scanSource store query (← q.obtainSource store)) := by
  refine congrArg (Action.openCollection tx q.collection >>= ·) (funext fun store => ?_)
  dsimp only
  unfold obtainSource
  cases q.index.isNull with
  | true => rfl
  | false => exact (bind_assoc (store.openIndex q.index) _ _).symm

section Reading

variable (hread : store.collection e = .ok c e) (hrange : KeyRange.ofQuery query = .ok range)

include hread

theorem obtainSource_run (hsource : q.source? c = some source) :
    q.obtainSource store e = .ok source e := by
  unfold source? at hsource
  unfold obtainSource
  split at hsource
  · next hnull =>
    cases hsource
    rw [if_pos hnull]
    rfl
  · next hnull =>
    obtain ⟨i, hi, rfl⟩ := Option.map_eq_some_iff.1 hsource
    have hindex : store.openIndex q.index e = .ok ⟨store, i.name, i.spec⟩ e := by
      unfold StoreRef.openIndex
      rw [bind_of_ok hread, hi]
      rfl
    rw [if_neg hnull]
    exact bind_of_ok hindex _

include hrange

theorem count_run (source : Option String) : store.count source query e =
    .ok ((c.rows source).filter fun row => KeyRange.covers range row.1).length e := by
  rw [StoreRef.count_run hread hrange]
  simp only [Scan.selected, KeyRange.allHold_conditionsOf]

/-- The cursor of a query comes to the first of its rows. -/
theorem exists_start_run (source : Option String) (q : Query)
    (hshow : ∀ row ∈ (q.cursor source range).visits c, c.CanShow row) :
    ∃ cur, CursorRef.start store source query (.text q.direction.name) (q.state == .keys) e =
        .ok ⟨store, cur⟩ e ∧
      Cursor.IsAt (q.cursor source range) cur c ((q.cursor source range).visits c) := by
  obtain ⟨cur, hstep, hcur⟩ := Cursor.exists_step_start source (KeyRange.conditionsOf range)
    q.direction (q.state == .keys) hshow
  refine ⟨cur, ?_, hcur⟩
  rw [CursorRef.start_run hread hrange, hstep]
  rfl

end Reading

/-! ### The rows of a query -/

theorem selects_visits_of_pairwise {c : Collection} {source : Option String}
    (hrows : (c.rows source).Pairwise fun a b => Entry.lt a b = true) (q : Query)
    (range : Option (KeyRange Value)) :
    Scan.Selects (c.rows source) range q.descending q.distinct ((q.cursor source range).visits c) := by
  rw [← isForward_direction, ← isUnique_direction]
  exact Scan.selects_remaining hrows range q.direction

/-- A query that only reads yields what it should for the rows that its cursor visits, if these can be
shown. -/
theorem scanSource_run_of_shown (hrows : (c.rows source).Pairwise fun a b => Entry.lt a b = true)
    (hread : store.collection e = .ok c e) (hrange : KeyRange.ofQuery query = .ok range)
    (hstate : q.state ≠ .count) (hwriting : q.isWriting = false)
    (hshow : ∀ row ∈ (q.cursor source range).visits c, c.CanShow row)
    (hpure : ∀ row ∈ (q.cursor source range).visits c, ∀ v, q.LooksAt c row v → q.IsPureOn v)
    {vs : List Value} (hvs : List.Forall₂ (q.LooksAt c) ((q.cursor source range).visits c) vs)
    (hskip : q.skip ≤ 2 ^ 63 ∨ (q.cursor source range).visits c = []) :
    q.scanSource store query source e = .ok (.results (q.yieldAll vs)) e := by
  have hoffset : q.skip - 1 ≤ CursorRef.maxOffset ∨ (q.cursor source range).visits c = [] :=
    hskip.imp_left fun hle => Nat.sub_le_sub_right hle 1
  have hvisits : ((q.cursor source range).visits c).length + 1 <
      (c.rows source).length + 1 + extraVisits :=
    (Nat.succ_le_succ (Scan.length_remaining_le _ _ _ _)).trans_lt
      (Nat.lt_add_of_pos_right (Nat.two_pow_pos 53))
  obtain ⟨cur, hstart, hcur⟩ := exists_start_run hread hrange source q hshow
  have htraverse : q.traverse ((c.rows source).length + 1 + extraVisits) ⟨store, cur⟩ 0 e =
      .ok (q.yieldAll vs) e :=
    traverse_run hwriting hread hrows hshow rfl hpure hcur rfl hvisits hoffset hvs
  unfold scanSource
  rw [if_neg hstate, bind_of_ok hstart, bind_of_ok hread]
  exact (bind_of_ok htraverse _).trans rfl

section Selection

variable (hc : c.IsConsistent fun _ => False)
  (hdates : ∀ row ∈ c.rows source, row.1.IsDateFree ∧ row.2.IsDateFree)

include hc

theorem selects_visits (q : Query) (source : Option String) (range : Option (KeyRange Value)) :
    Scan.Selects (c.rows source) range q.descending q.distinct ((q.cursor source range).visits c) :=
  selects_visits_of_pairwise (Collection.ascending_rows hc source nofun) q range

theorem mem_rows_of_mem_visits {row : Entry} (hrow : row ∈ (q.cursor source range).visits c) :
    row ∈ c.rows source :=
  (((selects_visits hc q source range).mem_iff row).1 hrow).1

include hdates

theorem canShow_of_mem_visits {row : Entry} (hrow : row ∈ (q.cursor source range).visits c) :
    c.CanShow row := by
  have hmem := mem_rows_of_mem_visits hc hrow
  exact Collection.canShow_of_mem_rows hc hmem (hdates row hmem).1 (hdates row hmem).2

/-- A query that only reads yields what it should for the rows that its cursor visits. -/
theorem scanSource_run (hread : store.collection e = .ok c e)
    (hrange : KeyRange.ofQuery query = .ok range) (hstate : q.state ≠ .count)
    (hwriting : q.isWriting = false)
    (hpure : ∀ row ∈ c.rows source, ∀ v, q.LooksAt c row v → q.IsPureOn v) {vs : List Value}
    (hvs : List.Forall₂ (q.LooksAt c) ((q.cursor source range).visits c) vs)
    (hskip : q.skip ≤ 2 ^ 63 ∨ (q.cursor source range).visits c = []) :
    q.scanSource store query source e = .ok (.results (q.yieldAll vs)) e := by
  have hshow : ∀ row ∈ (q.cursor source range).visits c, c.CanShow row :=
    fun _ => canShow_of_mem_visits hc hdates
  have hpure' : ∀ row ∈ (q.cursor source range).visits c, ∀ v, q.LooksAt c row v → q.IsPureOn v :=
    fun row hrow => hpure row (mem_rows_of_mem_visits hc hrow)
  exact scanSource_run_of_shown (Collection.ascending_rows hc source nofun) hread hrange hstate hwriting
    hshow hpure' hvs hskip

end Selection

/-! ### Queries as a whole -/

/-- A query that only reads finds what it scans: over an open connection with nothing under way, in a
collection that the connection knows, or an index of it. -/
structure FindsSource (q : Query) (e : Engine) (db : Nat) (c : Collection) (source : Option String) :
    Prop where
  isOpen : (e.connection db).isClosed = false
  isIdle : (e.connection db).work = .idle
  known : ∃ name, q.collection = .text name ∧ name ∈ (e.connection db).collectionNames ∧
    (e.store (e.connection db).path).contents.get name = c
  isListed : c.header.isSome = true
  scanned : q.source? c = some source
  reading : q.isWriting = false

/-- A query that only reads can be run: over an open connection with nothing under way, in a collection
that the connection knows, or an index of it; the collection is consistent, no key in the source is or
has a date, and the functions of the query are pure. -/
structure CanRead (q : Query) (e : Engine) (db : Nat) (c : Collection) (source : Option String) :
    Prop where
  isOpen : (e.connection db).isClosed = false
  isIdle : (e.connection db).work = .idle
  known : ∃ name, q.collection = .text name ∧ name ∈ (e.connection db).collectionNames ∧
    (e.store (e.connection db).path).contents.get name = c
  isListed : c.header.isSome = true
  scanned : q.source? c = some source
  consistent : c.IsConsistent fun _ => False
  dates : ∀ row ∈ c.rows source, row.1.IsDateFree ∧ row.2.IsDateFree
  reading : q.isWriting = false
  pure : ∀ row ∈ c.rows source, ∀ v, q.LooksAt c row v → q.IsPureOn v

variable {db : Nat}

/-- Whatever a query yields once it has obtained its collection and source, it yields as a whole, and
leaves the stores as they were. -/
theorem exists_run_of_findsSource (h : q.FindsSource e db c source) {result : QueryResult}
    (hscan : ∀ store d, StoreRef.collection store d = .ok c d →
      q.scanSource store query source d = .ok result d) :
    ∃ d, q.run db query e = .ok result d ∧ d.stores = e.stores ∧ d.notices = e.notices := by
  obtain ⟨name, hcollection, hname, hc⟩ := h.known
  obtain ⟨header, hheader⟩ := Option.isSome_iff_exists.1 h.isListed
  obtain ⟨tx, d, b, hopened, hbegin, hb⟩ := Action.exists_begin_reading h.isOpen h.isIdle hname
  obtain ⟨seen, hreworked⟩ : ∃ seen, seen =
      b.rework tx (.reading (some (e.store (e.connection db).path))) := ⟨_, rfl⟩
  have hobtained : Action.openCollection tx (.text name) b = .ok ⟨tx, name, header.keying⟩ seen := by
    rw [hreworked, ← hb.store]
    refine Action.openCollection_of_read (by simp [hb.mode]) ?_ (Action.read_of_unread hb.unread)
      (by rw [hb.store, hc, hheader])
    rw [hb.scope]
    exact List.mem_singleton_self name
  have hseen : seen.HasUnderWay tx (.reading (some (e.store (e.connection db).path))) :=
    hreworked ▸ hb.unread.rework _
  have hread : StoreRef.collection ⟨tx, name, header.keying⟩ seen = .ok c seen := by
    unfold StoreRef.collection
    rw [bind_of_ok (Action.read_of_seen hseen), ← hc]
    rfl
  have hbody : q.scan tx query b = ending (.ok result) seen := by
    rw [scan_eq, hcollection, bind_of_ok hobtained, bind_of_ok (obtainSource_run hread h.scanned)]
    exact hscan _ seen hread
  unfold run
  rw [hcollection, h.reading]
  refine ⟨seen.ended tx, (bind_of_ok hopened _).trans ?_, ?_⟩
  · unfold Action.within
    rw [bind_of_ok hbegin, bind_of_ok (attempt_of_ending hbody), Action.conclude_ok_run hseen]
    rfl
  · rw [← hb.stores, ← hb.notices, hreworked]
    exact ⟨rfl, rfl⟩

theorem exists_run (h : q.CanRead e db c source) {result : QueryResult}
    (hscan : ∀ store d, StoreRef.collection store d = .ok c d →
      q.scanSource store query source d = .ok result d) :
    ∃ d, q.run db query e = .ok result d ∧ d.stores = e.stores ∧ d.notices = e.notices :=
  exists_run_of_findsSource ⟨h.isOpen, h.isIdle, h.known, h.isListed, h.scanned, h.reading⟩ hscan

/-- A store with three numbers, two of them equal, and an index over them. -/
def numbersKept : Course := (Course.numbersIndexed false).next (.conclude (.upgrade 0 0 0 1) (.ok ()))

/-- Its collection. -/
def numbers : Collection := (numbersKept.engine.store "path").contents.get "numbers"

/-- A query that takes one number after so many. -/
def oneAfter (index : Value) (skip : Nat) : Query :=
  { ofRange (.text "numbers") index .null with
    descending := true, distinct := true, window := some ⟨skip, 1⟩ }

theorem isConsistent_numbers : numbers.IsConsistent fun _ => False := by
  have hgivenUp : (Course.numbersIndexed false).givenUp = [] := by decide +kernel
  have hreached : numbersKept.IsReached := by
    refine .next (Course.isReached_numbersIndexed false) ⟨nofun, fun _ _ _ => ?_, nofun⟩
    rw [hgivenUp]
    exact nofun
  exact ((Course.isSound_of_isReached hreached).engine.kept "path" "numbers").consistent

/-- Such a query can be run over the collection and over its index. -/
theorem canRead_oneAfter {index : Value} {source : Option String} (skip : Nat)
    (hsource : (oneAfter index skip).source? numbers = some source)
    (hdates : ∀ row ∈ numbers.rows source,
      (∃ n ∈ List.range 7, (Value.int n).encodeKey.toOption = some row.1) ∧
        ∃ n ∈ List.range 7, (Value.int n).encodeKey.toOption = some row.2) :
    (oneAfter index skip).CanRead numbersKept.engine 0 numbers source where
  isOpen := by decide +kernel
  isIdle := by decide +kernel
  known := by
    have hpath : (numbersKept.engine.connection 0).path = "path" := by decide +kernel
    exact ⟨"numbers", rfl, by decide +kernel, by rw [hpath]; rfl⟩
  isListed := by decide +kernel
  scanned := hsource
  consistent := isConsistent_numbers
  dates row hrow := by
    obtain ⟨⟨k, _, hk⟩, ⟨p, _, hp⟩⟩ := hdates row hrow
    exact ⟨⟨.int k, trivial, eq_ok_of_toOption hk⟩, ⟨.int p, trivial, eq_ok_of_toOption hp⟩⟩
  reading := rfl
  pure _ _ _ _ := ⟨nofun, nofun⟩

end Query
end RecordStore
