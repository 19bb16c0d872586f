import RecordStore.Proofs.Key.Equality
import RecordStore.Proofs.Query.Reindexing
import RecordStore.Proofs.Session.Calls
import RecordStore.Query.Builder

/-!
Looking records up by an index. An index over one field leads from a key to the records whose field
has it, and these are the records that a scan of the whole collection keeps when it is filtered by the
field. The two ways have nothing in common: the one compares keys in bytes, the other compares values
strictly.
-/

namespace RecordStore

open Effect

/-! ### Key paths of one field -/

namespace IndexSpec

variable {spec : IndexSpec} {field : String} {v : Value} {b : Bytes}

/-- An index gets its keys from a field of the records, one from each record at most. -/
structure IsOfField (spec : IndexSpec) (field : String) : Prop where
  keyPath : spec.keyPath = some (.single field)
  single : spec.multiEntry = false
  ne_empty : field ≠ ""
  dotFree : '.' ∉ field.toList

/-- The index key of a record is that of its field. -/
theorem IsOfField.mem_keysFor_iff (h : spec.IsOfField field) :
    (∃ keys, spec.keysFor v = .ok keys ∧ b ∈ keys) ↔ ∃ w, v.field? field = some w ∧ w.encodeKey = .ok b := by
  have hfind : (KeyPath.single field).find? v = v.field? field :=
    KeyPath.findSingle_of_not_mem h.ne_empty h.dotFree v
  unfold keysFor
  rw [h.keyPath, h.single]
  dsimp only
  rw [hfind]
  cases v.field? field with
  | none => simp
  | some w =>
      have hkeys : (∃ keys, (if w.isValidKey then w.encodeKey.map ([·]) else .ok []) = .ok keys ∧ b ∈ keys) ↔
          w.encodeKey = .ok b := by
        constructor
        · rintro ⟨keys, hkeys, hb⟩
          split at hkeys
          · obtain ⟨k, hk, rfl⟩ := map_eq_ok_iff.1 hkeys
            rw [List.mem_singleton.1 hb, hk]
          · cases hkeys
            cases hb
        · intro hb
          rw [if_pos (Value.isValidKey_of_encodeKey hb), hb]
          exact ⟨[b], rfl, List.mem_singleton_self b⟩
      simpa using hkeys

end IndexSpec

/-! ### The records with a value in a field -/

namespace Collection

variable {c : Collection} {index field : String} {i : Index} {v : Value} {b : Bytes} {E : List Entry}

/-- The records of a collection, in the order of their keys. -/
def values (c : Collection) : List Value := c.records.filterMap fun r => c.view r.1

/-- The records of a collection whose field has a value, in the order of their keys. -/
def having (c : Collection) (field : String) (v : Value) : List Value :=
  c.values.filter (Filter.fieldMatches field v)

/-- No number in a field of the records is rounded when it becomes a key. -/
def IsExactAt (c : Collection) (field : String) : Prop :=
  ∀ r ∈ c.records, ∀ record w, Value.loads r.2 = .ok record → record.field? field = some w → w.IsExact

instance (c : Collection) (field : String) : Decidable (c.IsExactAt field) :=
  decidable_of_iff (∀ r ∈ c.records, ∀ record ∈ (Value.loads r.2).toOption,
      ∀ w ∈ record.field? field, w.IsExact) <| by
    refine forall₂_congr fun r _ => ⟨fun h record w hloads hw => ?_, fun h record hloads w hw => ?_⟩
    · exact h record (by rw [hloads]; rfl) w hw
    · exact h record w (eq_ok_of_toOption hloads) hw

/-- The records that some rows lead to. -/
def valuesAt (c : Collection) (E : List Entry) : List Value := E.filterMap fun row => c.view row.2

/-- An index has a record under the key of a value exactly when the field of the record has the value. -/
theorem mem_rows_iff_fieldMatches (hc : c.IsConsistent fun _ => False) (hi : c.index? index = some i)
    (hspec : i.spec.IsOfField field) (hv : v.IsScalar) (hb : v.encodeKey = .ok b)
    (hexact : c.IsExactAt field) {key : Bytes} :
    (b, key) ∈ c.rows (some index) ↔ (c.view key).any (Filter.fieldMatches field v) = true := by
  have hindexes := hc.indexed i (List.mem_of_find?_eq_some hi) id
  rw [mem_rows_iff_of_indexes hc hi hindexes, Option.any_eq_true]
  refine exists_congr fun record => ?_
  rw [exists_and_left, hspec.mem_keysFor_iff]
  refine and_congr_right fun hrecord => ?_
  obtain ⟨text, hmem, hloads⟩ := (view_eq_some_iff hc).1 hrecord
  unfold Filter.fieldMatches
  cases hfield : record.field? field with
  | none => simp
  | some w =>
      have hw : w.IsExact := hexact _ hmem record w hloads hfield
      simpa using Value.encodeKey_eq_iff_strictEquals hv hb hw

/-- Of all rows of a collection itself none is left out. -/
theorem valuesAt_of_selects_all (hc : c.IsConsistent fun _ => False)
    (hE : Scan.Selects (c.rows none) none false false E) : c.valuesAt E = c.values := by
  have hall : Scan.Selects (c.rows none) none false false (c.rows none) :=
    ⟨ascending_rows hc none nofun, fun e => by simp [KeyRange.covers]⟩
  rw [hE.eq hall, valuesAt, values, rows, List.filterMap_map]
  rfl

/-- Rows with one index key are in the order of the keys of the records. -/
theorem ascending_keys_of_same_key (hE : E.Pairwise fun a b => Entry.lt a b = true)
    (hkey : ∀ row ∈ E, row.1 = b) : (E.map Prod.snd).Pairwise fun k l => Bytes.lt k l = true := by
  refine List.pairwise_map.2 (hE.imp_of_mem fun {row other} hrow hother hlt => ?_)
  rw [Entry.lt_iff, hkey row hrow, hkey other hother, Bytes.isOrder.irrefl] at hlt
  simpa using hlt

/-- The rows of an index under the key of a value lead to the records whose field has the value, and that
in the order of their keys. -/
theorem valuesAt_of_selects_only (hc : c.IsConsistent fun _ => False) (hi : c.index? index = some i)
    (hspec : i.spec.IsOfField field) (hv : v.IsScalar) (hb : v.encodeKey = .ok b)
    (hexact : c.IsExactAt field)
    (hE : Scan.Selects (c.rows (some index)) (some ⟨v, v, false, false, some b, some b⟩) false false E) :
    c.valuesAt E = c.having field v := by
  have hkey : ∀ row ∈ E, row.1 = b := fun row hrow =>
    KeyRange.covers_single.1 ((hE.mem_iff row).1 hrow).2.1
  have hascending := ascending_keys_of_same_key (by simpa using hE.sorted) hkey
  have hrecords : (c.records.map Prod.fst).Pairwise fun k l => Bytes.lt k l = true :=
    List.pairwise_map.2 hc.ascending
  have hkeys : E.map Prod.snd =
      (c.records.map Prod.fst).filter fun k => (c.view k).any (Filter.fieldMatches field v) := by
    apply OrderedRows.eq_of_mem_iff Bytes.isOrder hascending (hrecords.filter _)
    intro key
    rw [List.mem_filter, ← mem_rows_iff_fieldMatches hc hi hspec hv hb hexact, List.mem_map]
    constructor
    · rintro ⟨row, hrow, rfl⟩
      have hrows := ((hE.mem_iff row).1 hrow).1
      obtain ⟨text, hrecord⟩ := exists_mem_records_of_mem_rows hc hrows
      exact ⟨List.mem_map_of_mem hrecord, hkey row hrow ▸ hrows⟩
    · rintro ⟨-, hrows⟩
      exact ⟨(b, key), (hE.mem_iff _).2 ⟨hrows, KeyRange.covers_single.2 rfl, nofun⟩, rfl⟩
  calc c.valuesAt E = (E.map Prod.snd).filterMap c.view := by
        rw [List.filterMap_map]
        rfl
    _ = (c.records.map Prod.fst).filterMap fun k =>
          (c.view k).filter (Filter.fieldMatches field v) := by
        rw [hkeys, List.filterMap_filter]
        refine List.filterMap_congr fun k _ => ?_
        cases c.view k <;> simp [Option.filter]
    _ = c.having field v := by
        rw [having, values, List.filter_filterMap, List.filterMap_map]
        rfl

end Collection

/-! ### Queries that read records -/

namespace Query

variable {q : Query} {e : Engine} {db : Nat} {c : Collection} {source : Option String} {query : Value}
  {range : Option (KeyRange Value)} {v : Value} {vs : List Value}

/-- A query reads records in ascending order, and does no more than to filter them by fields. -/
structure IsPlain (q : Query) : Prop where
  state : q.state = .initial
  descending : q.descending = false
  distinct : q.distinct = false
  window : q.window = none
  rule : q.rule = none
  mapper : q.mapper = none
  filters : ∀ f ∈ q.filters, ∃ field v, f = .field field v

theorem IsPlain.isPureOn (h : q.IsPlain) (v : Value) : q.IsPureOn v where
  filters f hf := by
    obtain ⟨field, w, rfl⟩ := h.filters f hf
    exact ⟨_, rfl⟩
  mapper := by simp [h.mapper]

theorem IsPlain.yieldAll_eq (h : q.IsPlain) (vs : List Value) :
    q.yieldAll vs = vs.filter q.accepts := by
  have hyield : q.yield = id := by
    funext v
    simp [yield, map, h.mapper]
  simp [yieldAll, skip, h.window, hyield]

/-- What a query that reads records looks at in some rows. -/
theorem forall₂_looksAt (hc : c.IsConsistent fun _ => False) (hstate : q.state = .initial)
    {E : List Entry} (hE : ∀ row ∈ E, row ∈ c.rows source) :
    List.Forall₂ (q.LooksAt c) E (c.valuesAt E) := by
  induction E with
  | nil => exact .nil
  | cons row rest ih =>
      obtain ⟨v, hv⟩ := Option.isSome_iff_exists.1 ((Collection.isSome_view_iff hc).2
        (Collection.exists_mem_records_of_mem_rows hc (hE row List.mem_cons_self)))
      have hlooks : q.LooksAt c row v := by
        rw [LooksAt, if_neg (by simp [hstate])]
        exact Collection.load_of_view hv
      rw [Collection.valuesAt, List.filterMap_cons, hv]
      exact .cons hlooks (ih fun other hother => hE other (List.mem_cons_of_mem row hother))

/-- A query that reads records yields those that it accepts of the ones that the rows in its range lead
to, if there are no dates in the keys of these rows. -/
theorem exists_run_of_isPlain (hq : q.IsPlain) (h : q.FindsSource e db c source)
    (hc : c.IsConsistent fun _ => False) (hrange : KeyRange.ofQuery query = .ok range)
    (hdates : ∀ row ∈ c.rows source, KeyRange.covers range row.1 = true →
      row.1.IsDateFree ∧ row.2.IsDateFree) :
    ∃ E d, Scan.Selects (c.rows source) range false false E ∧
      q.run db query e = .ok (.results ((c.valuesAt E).filter q.accepts)) d ∧ d.stores = e.stores := by
  have hselects := selects_visits hc q source range
  have hshow : ∀ row ∈ (q.cursor source range).visits c, c.CanShow row := by
    intro row hrow
    obtain ⟨hmem, hcovers, _⟩ := (hselects.mem_iff row).1 hrow
    obtain ⟨hkey, hprimaryKey⟩ := hdates row hmem hcovers
    exact Collection.canShow_of_mem_rows hc hmem hkey hprimaryKey
  have hskip : q.skip ≤ 2 ^ 63 := by simp [skip, hq.window]
  obtain ⟨d, hd, hstores, _⟩ := exists_run_of_findsSource h fun store d hread =>
    scanSource_run_of_shown (Collection.ascending_rows hc source nofun) hread hrange
      (by simp [hq.state]) h.reading hshow (fun _ _ v _ => hq.isPureOn v)
      (forall₂_looksAt hc hq.state fun _ => mem_rows_of_mem_visits hc) (.inl hskip)
  rw [hq.yieldAll_eq] at hd
  rw [hq.descending, hq.distinct] at hselects
  exact ⟨_, d, hselects, hd, hstores⟩

/-! ### Looking up by an index and by a filter -/

/-- A query for a value in an index. -/
def lookup (name index : String) (v : Value) : Query :=
  ofRange (.text name) (.text index) (.descriptor (.equals v))

/-- A query of a whole collection that is filtered by a field and a value. -/
def filtering (name field : String) (v : Value) : Query :=
  { ofRange (.text name) .null (.descriptor .unbounded) with filters := [.field field v] }

theorem start_only (name index : String) (v : Value) :
    start (.text name) (.text index) (.only v) = .ok (lookup name index v) := rfl

theorem start_filter {field : String} (hfield : field ≠ "") (name : String) (v : Value) :
    start (.text name) .null (.filter [.text field, v]) = .ok (filtering name field v) := by
  simp [start, addFilter, RangeCall.target, Value.isTrue, hfield, filtering, ofRange]

theorem isPlain_lookup (name index : String) (v : Value) : (lookup name index v).IsPlain where
  state := rfl
  descending := rfl
  distinct := rfl
  window := rfl
  rule := rfl
  mapper := rfl
  filters := nofun

theorem isPlain_filtering (name field : String) (v : Value) : (filtering name field v).IsPlain where
  state := rfl
  descending := rfl
  distinct := rfl
  window := rfl
  rule := rfl
  mapper := rfl
  filters _ hf := ⟨field, v, List.mem_singleton.1 hf⟩

end Query

namespace Session

variable {s : Session} {h : Hub} {name index field : String} {c : Collection} {i : Index} {v : Value}

/-- A session can read a collection: its connection is open, has nothing under way and knows the
collection, which is in the store of the connection. -/
structure CanReadFrom (s : Session) (h : Hub) (name : String) (c : Collection) : Prop where
  isOpen : h.isClosed s.connection = false
  isConnected : (h.engine.connection (h.connection s.connection).db).isClosed = false
  isIdle : (h.engine.connection (h.connection s.connection).db).work = .idle
  known : name ∈ (h.engine.connection (h.connection s.connection).db).collectionNames
  isListed : c.header.isSome = true
  kept : (h.engine.store (h.engine.connection (h.connection s.connection).db).path).contents.get name = c

theorem CanReadFrom.findsSource (hs : s.CanReadFrom h name c) {q : Query} {source : Option String}
    (hcollection : q.collection = .text name) (hsource : q.source? c = some source)
    (hrule : q.rule = none) :
    q.FindsSource h.engine (h.connection s.connection).db c source where
  isOpen := hs.isConnected
  isIdle := hs.isIdle
  known := ⟨name, hcollection, hs.known, hs.kept⟩
  isListed := hs.isListed
  scanned := hsource
  reading := by simp [Query.isWriting, hrule]

theorem resolve_only {b : Bytes} (hb : v.encodeKey = .ok b) :
    resolve (.descriptor (.equals v)) =
      .ok (.keyRange ⟨v, v, false, false, some b, some b⟩) := by
  have honly : KeyRange.only v = .ok ⟨v, v, false, false, some b, some b⟩ := by
    rw [KeyRange.only, hb]
    rfl
  simp [resolve, RangeExpression.resolve, RangeExpression.translate, RangeExpression.toNative, honly,
    Except.mapError]

/-- A query of a session that reads records yields those that it accepts of the ones that the rows in its
range lead to. -/
theorem exists_execute_run_of_isPlain (hs : s.CanReadFrom h name c) (hc : c.IsConsistent fun _ => False)
    (hdates : ∀ r ∈ c.records, r.1.IsDateFree) {q : Query} (hq : q.IsPlain)
    (hcollection : q.collection = .text name) {source : Option String}
    (hsource : q.source? c = some source) {query : Value} {range : Option (KeyRange Value)}
    (hresolve : resolve q.range = .ok query) (hrange : KeyRange.ofQuery query = .ok range)
    (hkeys : ∀ row ∈ c.rows source, KeyRange.covers range row.1 = true → row.1.IsDateFree) :
    ∃ E g, Scan.Selects (c.rows source) range false false E ∧
      (s.execute q).run h = .ok (.list ((c.valuesAt E).filter q.accepts)) g ∧
      g.engine.stores = h.engine.stores := by
  have hshown : ∀ row ∈ c.rows source, KeyRange.covers range row.1 = true →
      row.1.IsDateFree ∧ row.2.IsDateFree := by
    intro row hrow hcovers
    obtain ⟨text, hmem⟩ := Collection.exists_mem_records_of_mem_rows hc hrow
    exact ⟨hkeys row hrow hcovers, hdates _ hmem⟩
  have hfinds := hs.findsSource hcollection hsource hq.rule
  obtain ⟨E, d, hE, hrun, hstores⟩ := Query.exists_run_of_isPlain hq hfinds hc hrange hshown
  obtain ⟨g, hg, rfl⟩ := exists_execute_run hs.isOpen hresolve hrun
  exact ⟨E, g, hE, hg, hstores⟩

/-- A query for a value in an index over a field yields the records whose field has the value. -/
theorem exists_lookup_run (hs : s.CanReadFrom h name c) (hc : c.IsConsistent fun _ => False)
    (hi : c.index? index = some i) (hspec : i.spec.IsOfField field) (hv : v.IsScalar)
    (hdates : ∀ r ∈ c.records, r.1.IsDateFree) (hexact : c.IsExactAt field) :
    ∃ g, (s.execute (.lookup name index v)).run h = .ok (.list (c.having field v)) g ∧
      g.engine.stores = h.engine.stores := by
  obtain ⟨b, hb⟩ := hv.exists_encodeKey
  have hname : i.name = index := by
    have hfound := List.find?_some hi
    exact beq_iff_eq.1 hfound
  have hsource : (Query.lookup name index v).source? c = some (some index) := by
    change (c.index? index).map (fun i => some i.name) = some (some index)
    rw [hi, Option.map_some, hname]
  -- the rows in the range have the key of the value, whatever other keys there are in the index
  have hkeys : ∀ row ∈ c.rows (some index),
      KeyRange.covers (some ⟨v, v, false, false, some b, some b⟩) row.1 = true → row.1.IsDateFree := by
    intro row _ hcovers
    rw [KeyRange.covers_single.1 hcovers]
    exact ⟨v, hv.isDateFree, hb⟩
  obtain ⟨E, g, hE, hg, hstores⟩ := exists_execute_run_of_isPlain hs hc hdates
    (Query.isPlain_lookup name index v) rfl hsource (resolve_only hb) rfl hkeys
  have haccepts : (Query.lookup name index v).accepts = fun _ => true := rfl
  rw [haccepts, List.filter_true, Collection.valuesAt_of_selects_only hc hi hspec hv hb hexact hE] at hg
  exact ⟨g, hg, hstores⟩

/-- A query of a whole collection that is filtered by a field yields the records whose field has the
value. -/
theorem exists_filtering_run (hs : s.CanReadFrom h name c) (hc : c.IsConsistent fun _ => False)
    (hdates : ∀ r ∈ c.records, r.1.IsDateFree) (field : String) (v : Value) :
    ∃ g, (s.execute (.filtering name field v)).run h = .ok (.list (c.having field v)) g ∧
      g.engine.stores = h.engine.stores := by
  have hkeys : ∀ row ∈ c.rows none, KeyRange.covers none row.1 = true → row.1.IsDateFree := by
    intro row hrow _
    obtain ⟨r, hr, rfl⟩ := List.mem_map.1 hrow
    exact hdates r hr
  obtain ⟨E, g, hE, hg, hstores⟩ := exists_execute_run_of_isPlain hs hc hdates
    (Query.isPlain_filtering name field v) rfl rfl rfl rfl hkeys
  have haccepts : (Query.filtering name field v).accepts = Filter.fieldMatches field v := by
    funext r
    exact Bool.and_true _
  rw [haccepts, Collection.valuesAt_of_selects_all hc hE] at hg
  exact ⟨g, hg, hstores⟩

/-- A hub with one session, whose connection is to a store with three people. -/
def peopleHub : Hub :=
  { Hub.initial with engine := Query.peopleKept, connections := [⟨"people", 1, 0, false, 0, []⟩] }

/-- The number thirty as a double. -/
def thirty : Value := .float ⟨0x403e000000000000⟩

end Session
end RecordStore
