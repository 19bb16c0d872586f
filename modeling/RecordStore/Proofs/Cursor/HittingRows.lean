import RecordStore.Proofs.Cursor.Interleaving
import RecordStore.Proofs.Query.Passage

/-!
Writes under a cursor hit the row that it stands on. A cursor keeps the keys of its row in decoded form and
addresses the record by what it kept; without dates that is the same record, whatever the source of the
cursor. So a deletion takes this record and its index entries away, a write replaces them and keeps all keys,
and both leave everything else alone.
-/

namespace RecordStore

open Effect

/-! ### Handles -/

/-- A handle of a collection that some call obtained. -/
def StoreRef.IsObtained (r : StoreRef) : Prop :=
  ∃ (e d : Engine) (c : EngineCall), e.IsReachable ∧ c.run e = .ok (some r) d

theorem Contents.IsRegular.create {s : Contents} (h : s.IsRegular) {keying : Keying}
    (hkeying : keying.GeneratesSingly) (name : String) : (s.create name keying).IsRegular := by
  have hcreated : ∀ k, Change.create keying = .create k → k.GeneratesSingly := by
    rintro _ ⟨⟩
    exact hkeying
  intro other
  by_cases hother : other = name
  · rw [hother, Contents.create, get_set_self]
    exact Collection.isRegular_apply (h name) name hcreated
  · rw [Contents.create, get_set_of_ne hother]
    exact h other

namespace Action

variable {tx : Nat}

theorem ensures_read_isRegular (tx : Nat) : (read tx).Ensures (Engine.AllContents Contents.IsRegular)
    fun s => s.contents.IsRegular := by
  apply ensures_read
  · exact fun _ _ he hw => (Engine.isStable_allContents _).observed he hw
  · intro e s he hw
    exact he.work (e.transaction tx).connection s (by simp [hw, Work.store?])
  · intro e s he hw
    exact he.work (e.transaction tx).connection s (by simp [hw, Work.store?])
  · exact fun _ path he => he.stores path

/-- A collection that is opened has keys generated singly. -/
theorem ensures_openCollection_generatesSingly (tx : Nat) (name : Value) :
    (openCollection tx name).Ensures (Engine.AllContents Contents.IsRegular) fun r =>
      r.keying.GeneratesSingly :=
  ensures_openCollection (Engine.isStable_allContents _) (ensures_read_isRegular tx)
    (fun _ hs name => (hs name).keying) name

/-- A collection that is created has keys generated singly, as it is refused otherwise. -/
theorem ensures_createCollection_generatesSingly (tx : Nat) (name keyPath autoIncrement : Value) :
    (createCollection tx name keyPath autoIncrement).Ensures (Engine.AllContents Contents.IsRegular) fun r =>
      r.keying.GeneratesSingly := by
  unfold createCollection
  cases name with
  | text name =>
      refine keeps_bind (keeps_pure name) fun made => keeps_bind (keeps_ofExcept _) fun path => ?_
      refine meets_guard (keeps_throw _) fun hallowed => ?_
      have hkeying : (Keying.mk path autoIncrement.isTrue).GeneratesSingly := by
        rintro hauto paths rfl
        apply hallowed
        simp [show autoIncrement.isTrue = true from hauto, KeyPath.isCompound]
      refine keeps_bind (ensures_read_isRegular tx).keeps fun s => ?_
      refine meets_guard (keeps_throw _) fun _ => ?_
      refine keeps_bind ?_ fun _ => ensures_openCollection_generatesSingly tx (.text made)
      apply meets_write (fun _ he => he)
      · intro e draft he _ hw
        apply he.setConnection
        rintro _ ⟨⟩
        exact (he.work (e.transaction tx).connection draft (by simp [hw, Work.store?])).create hkeying made
      · exact fun _ he _ => he
  | _ => exact meets_fail (keeps_throw _)

end Action

/-- Whatever handle was obtained, it has keys generated singly. -/
theorem StoreRef.IsObtained.generatesSingly {r : StoreRef} (h : r.IsObtained) : r.keying.GeneratesSingly := by
  obtain ⟨e, d, c, hreachable, hrun⟩ := h
  have hregular := Engine.isRegular_of_isReachable hreachable
  have hnone {α : Type} {a : Action α} : EngineCall.obtainsNone a e ≠ .ok (some r) d := by
    intro hok
    obtain ⟨_, _, _, hok⟩ := exists_of_bind hok
    cases hok
  cases c with
  | openCollection tx name =>
      obtain ⟨_, _, hopen, hok⟩ := exists_of_bind hrun
      cases hok
      exact ((Action.ensures_openCollection_generatesSingly tx name).of_ok hregular hopen).2
  | createCollection tx name keyPath autoIncrement =>
      obtain ⟨_, _, hcreate, hok⟩ := exists_of_bind hrun
      cases hok
      exact ((Action.ensures_createCollection_generatesSingly tx name keyPath autoIncrement).of_ok hregular
        hcreate).2
  | _ => exact absurd hrun hnone

/-! ### Cursors on their way -/

namespace CursorRef

/-- A cursor that was opened on some source, in some direction and range, through a handle that was obtained,
and was then moved on any number of times. Other calls may come between, and a move may fail to show what it
comes to. -/
inductive IsMade : CursorRef → Prop
  | start {r : StoreRef} {source : Option String} {query direction : Value} {keyOnly : Bool} {e d : Engine}
    {cur : CursorRef} (hobtained : r.IsObtained) (h : start r source query direction keyOnly e = .ok cur d) :
    IsMade cur
  | step {cur next : CursorRef} {count : Nat} {result : Except Failure Unit} {e d : Engine}
    (hmade : IsMade cur) (h : cur.step count e = .ok (result, next) d) : IsMade next

variable {cur next : CursorRef} {e d : Engine} {row : Entry}

/-- A cursor that is not done and stands on a row without dates shows the key of the row's record. -/
def ShowsKeys (cur : CursorRef) : Prop := cur.cursor.isDone = false → ∀ row ∈ cur.cursor.position,
  row.1.IsDateFree → row.2.IsDateFree → row.2.Encodes cur.cursor.primaryKey

/-- After a step a cursor is on a row that it was put on, or done; where it was before does not matter. -/
theorem showsKeys_of_step {count : Nat} {result : Except Failure Unit}
    (h : cur.step count e = .ok (result, next) d) : next.store = cur.store ∧ next.ShowsKeys := by
  obtain ⟨c, _, _, h⟩ := exists_of_bind h
  obtain ⟨_, h⟩ := passed_of_guard h
  cases h
  refine ⟨rfl, ?_⟩
  unfold ShowsKeys
  dsimp only [Cursor.step]
  cases hfetch : cur.cursor.fetch c (count - 1) with
  | none => exact nofun
  | some found =>
      intro _ row hrow hkey hprimaryKey
      obtain ⟨_, _, _, hmoved⟩ := Cursor.exists_moveTo_eq cur.cursor c found
      simp only [hmoved, Option.mem_def, Option.some.injEq] at hrow
      subst hrow
      exact (Cursor.encodes_moveTo cur.cursor c hkey hprimaryKey).2

theorem exists_step_of_start {r : StoreRef} {source : Option String} {query direction : Value} {keyOnly : Bool}
    (h : start r source query direction keyOnly e = .ok cur d) : ∃ before : CursorRef, before.store = r ∧
      ∃ e' result, before.step 1 e' = .ok (result, cur) d := by
  obtain ⟨cs, e', _, h⟩ := exists_of_bind h
  cases hdirection : Direction.ofValue? direction with
  | none =>
      rw [hdirection] at h
      cases h
  | some dir =>
      rw [hdirection] at h
      obtain ⟨⟨result, next⟩, _, hstep, h⟩ := exists_of_bind h
      obtain ⟨⟨⟩, _, hresult, h⟩ := exists_of_bind h
      rw [ofExcept_run, ending_eq_ok_iff] at hresult
      obtain ⟨_, rfl⟩ := hresult
      cases h
      exact ⟨_, rfl, e', result, hstep⟩

theorem IsMade.spec (h : cur.IsMade) : cur.store.keying.GeneratesSingly ∧ cur.ShowsKeys := by
  -- on the moves of the cursor; only the handle is carried over from one to the next
  induction h with
  | start hobtained h =>
      obtain ⟨before, rfl, _, _, hstep⟩ := exists_step_of_start h
      obtain ⟨hstore, hshows⟩ := showsKeys_of_step hstep
      exact ⟨hstore ▸ hobtained.generatesSingly, hshows⟩
  | step _ h ih =>
      obtain ⟨hstore, hshows⟩ := showsKeys_of_step h
      exact ⟨hstore ▸ ih.1, hshows⟩

end CursorRef

/-! ### What becomes of a collection -/

/-- What becomes of an index when the record under a key is exchanged for another one: the entries of the
record are now those of its new index keys, and all others are as they were. -/
structure Index.Exchanges (i : Index) (key : Bytes) (v : Value) (j : Index) : Prop where
  name : j.name = i.name
  spec : j.spec = i.spec
  entries : ∃ keys, i.spec.keysFor v = .ok keys ∧
    ∀ e, e ∈ j.entries ↔ e.2 ≠ key ∧ e ∈ i.entries ∨ e.2 = key ∧ e.1 ∈ keys

namespace Collection

/-- What becomes of a collection when the record under a key is taken away: it and its index entries are
gone, and all else is as it was. -/
structure Drops (c : Collection) (key : Bytes) (d : Collection) : Prop where
  header : d.header = c.header
  records : d.records = c.records.filter fun r => !(r.1 == key)
  indexes : d.indexes = c.indexes.map fun i => i.dropWhere (· == key)

/-- What becomes of a collection when the record under a key is exchanged for another one: the keys are the
same, the new record is under the key, and all other records are as they were. -/
structure Exchanges (c : Collection) (key : Bytes) (v : Value) (d : Collection) : Prop where
  keying : d.header.map Header.keying = c.header.map Header.keying
  keys : d.records.map Prod.fst = c.records.map Prod.fst
  own : d.view key = some v
  others : ∀ other, other ≠ key → d.text? other = c.text? other
  indexes : ∃ f : Index → Index, d.indexes = c.indexes.map f ∧ ∀ i ∈ c.indexes, i.Exchanges key v (f i)

variable {c d : Collection} {flawed : String → Prop} {name : String} {keying : Keying} {b : Bytes}
  {key record v : Value}

/-- To delete the one key that a record is under is to take this record away. -/
theorem drops_delete {range : KeyRange Value} (hthere : b ∈ c.records.map Prod.fst)
    (hrange : ∀ key, Condition.allHold (KeyRange.conditionsOf (some range)) key = true ↔ key = b) :
    c.Drops b (c.delete (KeyRange.conditionsOf (some range))) := by
  have hholds (key : Bytes) :
      Condition.allHold (KeyRange.conditionsOf (some range)) key = (key == b) := by
    rw [Bool.eq_iff_iff, hrange, beq_iff_eq]
  have hsome : (c.text? b).isSome = true := by
    obtain ⟨r, hr, rfl⟩ := List.mem_map.1 hthere
    simpa [text?, List.lookup_isSome_iff] using ⟨r.2, hr⟩
  constructor
  · rfl
  · simp [delete, hholds]
  · have htest : (fun key => key == b && (c.text? key).isSome) = (· == b) := by
      funext key
      by_cases hkey : key = b
      · simp [hkey, hsome]
      · simp [hkey]
    simp [delete, hholds, htest]

/-- A planned write in place of a record exchanges its entries in each index. -/
theorem exchanges_updateIndex {p : Plan} {i : Index} {keys : List Bytes} (hreplaces : p.replaces = true)
    (hkeys : i.spec.keysFor v = .ok keys)
    (hentries : p.entries.filter (·.1 == i.name) = keys.map fun k => (i.name, k)) :
    i.Exchanges p.key v (p.updateIndex i) := by
  obtain ⟨hname, hspec⟩ := name_spec_updateIndex p i
  refine ⟨hname, hspec, keys, hkeys, fun e => ?_⟩
  rw [mem_updateIndex_iff, if_pos hreplaces, mem_entries_iff_of_filter hentries]
  simp [Index.dropWhere, and_comm]

/-- A record that was written back is exchanged for the clone of what was given. -/
theorem WritesBack.exists_exchanges (h : c.WritesBack name keying key record d)
    (hgenerates : keying.GeneratesSingly) (hc : c.IsConsistent flawed) (hb : b.IsDateFree)
    (hkey : key.encodeKey = .ok b) (hthere : b ∈ c.records.map Prod.fst) (hproper : record.IsProper) :
    ∃ v, record.clone = .ok v ∧ c.Exchanges b v d := by
  obtain ⟨v, hclone, hreplaces⟩ := h.exists_replaces hgenerates hc.ascending hb hkey hthere hproper
  obtain ⟨k, w, c', p, hclone', hsame, hplan, rfl, rfl⟩ := h.exists_plan hgenerates hb hkey hproper
  cases hclone.symm.trans hclone'
  obtain ⟨_, hreplacing, _, hentries, _⟩ := plan_spec hplan
  rw [hsame.indexes] at hentries
  obtain ⟨_, hspec⟩ := planEntries_spec hc.names hentries
  have htrue : p.replaces = true := by
    obtain ⟨r, hr, hkey⟩ := List.mem_map.1 hthere
    rw [hreplacing, text?, hsame.records, List.lookup_isSome_iff]
    exact ⟨r, hr, by simp [hkey]⟩
  refine ⟨v, hclone, hsame.keying, hreplaces.keys, hreplaces.own, hreplaces.others, p.updateIndex, ?_, ?_⟩
  · rw [carryOut, hsame.indexes]
  · intro i hi
    obtain ⟨keys, hkeys, _, hfilter⟩ := hspec i hi
    exact exchanges_updateIndex htrue hkeys hfilter

end Collection

/-! ### Writes under a cursor -/

namespace CursorRef

variable {cur : CursorRef} {e d : Engine} {s : Store} {row : Entry} {flawed : String → Prop} {v k : Value}

/-- A draft in which one collection is replaced. -/
theorem hasDrafted_set {r : StoreRef} (s : Store) (c : Collection) : e.HasDrafted r s c
    (e.redraft r.transaction { s with contents := s.contents.set r.name c }) :=
  ⟨_, rfl, rfl, Contents.get_set_self _ _ _, fun _ hother => Contents.get_set_of_ne hother _ _⟩

theorem delete_eq (hvalues : cur.cursor.keyOnly = false) (hdone : cur.cursor.isDone = false) :
    cur.delete = cur.store.delete cur.cursor.primaryKey := by
  unfold delete ensurePositioned
  rw [hvalues, hdone]
  rfl

/-- A value that does not have the key of the cursor is refused before anything is done. -/
theorem update_of_checkKept {path : KeyPath} {f : Failure} (hvalues : cur.cursor.keyOnly = false)
    (hdone : cur.cursor.isDone = false) (hpath : cur.store.keying.keyPath = some path)
    (h : Cursor.checkKept path cur.cursor.primaryKey v = .error f) : cur.update v e = .error f e := by
  have hrefused : (ofExcept (Cursor.checkKept path cur.cursor.primaryKey v) : Action Unit) e = .error f e := by
    rw [ofExcept_run, h]
    rfl
  unfold update ensurePositioned
  rw [hvalues, hdone, hpath]
  exact bind_of_error hrefused fun _ => cur.store.put v .null

/-- The deletion under a cursor that shows the key of its row takes away the record that the row leads to. -/
theorem exists_delete_run (hvalues : cur.cursor.keyOnly = false) (hdone : cur.cursor.isDone = false)
    (hkey : cur.cursor.primaryKey.encodeKey = .ok row.2) (hs : e.draft? cur.store.transaction = some s)
    (hmode : (e.transaction cur.store.transaction).mode ≠ .readonly)
    (hthere : row.2 ∈ (s.contents.get cur.store.name).records.map Prod.fst) :
    ∃ c d, cur.delete e = .ok () d ∧ e.HasDrafted cur.store s c d ∧
      (s.contents.get cur.store.name).Drops row.2 c := by
  have hrange := KeyRange.ofQuery_of_encodeKey hkey
  have hrun := StoreRef.delete_of_draft hs hmode (Collection.isNull_of_encodeKey hkey) hrange
  rw [delete_eq hvalues hdone, hrun]
  refine ⟨_, _, rfl, hasDrafted_set s _, ?_⟩
  apply Collection.drops_delete hthere
  intro key
  rw [KeyRange.allHold_conditionsOf, KeyRange.covers_single]

/-- Writes under a cursor hit the row that it stands on. A cursor for values was opened over a collection or
an index, in any direction and range, and moved on; it stands on a row without dates, and the record of the
row is still in the draft of its transaction, whose collection is consistent. Then a deletion succeeds and
takes away just this record with its index entries. A write that succeeds exchanges just this record with its
index entries for the clone of the value, and no key comes or goes. If keys are inline, a value without the
key of the row is refused, and nothing is changed. In each case all other collections stay as they were. -/
theorem writes_hit_the_row (hmade : cur.IsMade) (hvalues : cur.cursor.keyOnly = false)
    (hdone : cur.cursor.isDone = false) (hrow : cur.cursor.position = some row)
    (hdates : row.1.IsDateFree ∧ row.2.IsDateFree) (hs : e.draft? cur.store.transaction = some s)
    (hmode : (e.transaction cur.store.transaction).mode ≠ .readonly)
    (hc : (s.contents.get cur.store.name).IsConsistent flawed)
    (hthere : row.2 ∈ (s.contents.get cur.store.name).records.map Prod.fst) :
    (∃ c d, cur.delete e = .ok () d ∧ e.HasDrafted cur.store s c d ∧
      (s.contents.get cur.store.name).Drops row.2 c) ∧
    (∀ (v k : Value) (d : Engine), v.IsProper → cur.update v e = .ok k d →
      ∃ w c, v.clone = .ok w ∧ e.HasDrafted cur.store s c d ∧
        (s.contents.get cur.store.name).Exchanges row.2 w c) ∧
    ∀ path ∈ cur.store.keying.keyPath, ∀ v : Value,
      (∀ found ∈ path.find? v, found.encodeKey ≠ .ok row.2) → ∃ f, cur.update v e = .error f e := by
  obtain ⟨hgenerates, hshows⟩ := hmade.spec
  have hkey := (hshows hdone row hrow hdates.1 hdates.2).2
  refine ⟨exists_delete_run hvalues hdone hkey hs hmode hthere, fun v k d hproper hrun => ?_,
    fun path hpath v hother => ?_⟩
  · obtain ⟨c, hwritten, rfl⟩ := update_of_ok hs hmode hrun
    obtain ⟨w, hclone, hexchanges⟩ :=
      hwritten.exists_exchanges hgenerates hc hdates.2 hkey hthere hproper
    exact ⟨w, c, hclone, hasDrafted_set s c, hexchanges⟩
  · cases hcheck : Cursor.checkKept path cur.cursor.primaryKey v with
    | error f => exact ⟨f, update_of_checkKept hvalues hdone hpath hcheck⟩
    | ok u =>
        obtain ⟨found, hfound, hencode⟩ := Collection.exists_key_of_checkKept hcheck hkey
        exact absurd hencode (hother found hfound)

end CursorRef

/-- The collections in a draft that a run reaches are consistent, up to indexes whose making was given up. -/
theorem Course.isConsistent_of_draft {t : Course} (h : t.IsReached) {tx : Nat} {s : Store}
    (hs : t.engine.draft? tx = some s) (name : String) : (s.contents.get name).IsConsistent
      (GivenUp.flawed t.givenUp (t.engine.transaction tx).connection name) := by
  have hwork := (isSound_of_isReached h).engine.work (t.engine.transaction tx).connection
  obtain ⟨_, _, hdraft⟩ := Engine.draft?_eq_some_iff.1 hs
  rw [hdraft] at hwork
  exact (hwork name).consistent

/-! ### Two parcels of one weight -/

/-- A parcel with its number and its weight. -/
def Value.parcel (number weight : Int) : Value :=
  .dict [(.text "number", .int number), (.text "weight", .int weight)]

namespace Course

/-- The parcels under their numbers. -/
def parcels : StoreRef := ⟨0, "parcels", ⟨some (.single "number"), false⟩⟩

/-- An upgrade that is about to make the collection of parcels. -/
def parcelsBegun : Course := initial.next (.beginOpen "path" (.int 1) none)

/-- Two parcels of one weight, with an index over the weights. -/
def parcelsIndexed : Course :=
  parcelsBegun
    |>.next (.createCollection 0 (.text "parcels") (.text "number") (.bool false))
    |>.next (.put parcels (.parcel 1 5) .null)
    |>.next (.put parcels (.parcel 2 5) .null)
    |>.next (.createIndex parcels (.text "weight") (.text "weight") (.bool false) (.bool false))

theorem isReached_parcelsBegun : parcelsBegun.IsReached := .next .start ⟨nofun, nofun, nofun⟩

theorem isReached_parcelsIndexed : parcelsIndexed.IsReached := by
  unfold parcelsIndexed
  refine .next (.next (.next (.next isReached_parcelsBegun ⟨nofun, nofun, ?_⟩)
    (allows_of_mem rfl ?_)) (allows_of_mem rfl ?_)) (allows_of_mem rfl ?_)
  · rintro _ _ _ _ ⟨⟩ path h
    cases h
    have hsegments : KeyPath.segments "number" = ["number"] := by decide +kernel
    simp [KeyPath.IsTagFree, hsegments, Document.IsTag, Document.dateTag, Document.bytesTag, Document.setTag]
  all_goals decide +kernel

theorem isObtained_parcels : parcels.IsObtained := by
  obtain ⟨d, hd⟩ := exists_ok_of_result? (a := (EngineCall.createCollection 0 (.text "parcels")
    (.text "number") (.bool false)).run) (s := parcelsBegun.engine) (x := some parcels) (by decide +kernel)
  exact ⟨_, d, _, isReachable_engine isReached_parcelsBegun, hd⟩

end Course

namespace CursorRef

/-- A cursor over the weights from the last entry on. -/
def lastParcel : CursorRef := ⟨Course.parcels,
  ((Cursor.start (some "weight") [] .prev false).step
    (Course.parcels.drafted Course.parcelsIndexed.engine) 1).2⟩

theorem isMade_lastParcel : lastParcel.IsMade := by
  have hread := StoreRef.collection_run_drafted (r := Course.parcels) (e := Course.parcelsIndexed.engine)
    (by decide +kernel)
  have hstep : ((Cursor.start (some "weight") [] .prev false).step
      (Course.parcels.drafted Course.parcelsIndexed.engine) 1).1 = .ok () :=
    eq_ok_of_toOption (by decide +kernel)
  have hrange : KeyRange.ofQuery .null = .ok none := rfl
  suffices hstart : start Course.parcels (some "weight") .null (.text Direction.prev.name) false
      Course.parcelsIndexed.engine = .ok lastParcel Course.parcelsIndexed.engine from
    .start Course.isObtained_parcels hstart
  rw [start_run hread hrange]
  change ending ((((Cursor.start (some "weight") [] .prev false).step
    (Course.parcels.drafted Course.parcelsIndexed.engine) 1).1).map _) _ = _
  rw [hstep]
  rfl

/-- The second parcel can be deleted at the cursor and made heavier, but the cursor makes no third one of
it. -/
theorem writes_hit_the_row_parcels : ∃ s row,
    Course.parcelsIndexed.engine.draft? Course.parcels.transaction = some s ∧
    lastParcel.cursor.position = some row ∧
    (∃ c d, lastParcel.delete Course.parcelsIndexed.engine = .ok () d ∧
      (s.contents.get "parcels").Drops row.2 c) ∧
    (∃ w k c d, (Value.parcel 2 7).clone = .ok w ∧
      lastParcel.update (.parcel 2 7) Course.parcelsIndexed.engine = .ok k d ∧
        (s.contents.get "parcels").Exchanges row.2 w c) ∧
    ∃ f, lastParcel.update (.parcel 3 5) Course.parcelsIndexed.engine =
      .error f Course.parcelsIndexed.engine := by
  obtain ⟨s, hs⟩ : ∃ s, Course.parcelsIndexed.engine.draft? Course.parcels.transaction = some s :=
    Option.isSome_iff_exists.1 (by decide +kernel)
  have hsecond : (Value.int 2).encodeKey = .ok [16, 192, 0, 0, 0, 0, 0, 0, 0] :=
    eq_ok_of_toOption (by decide +kernel)
  have hweight : (Value.int 5).encodeKey = .ok [16, 192, 20, 0, 0, 0, 0, 0, 0] :=
    eq_ok_of_toOption (by decide +kernel)
  have hconsistent := Course.isConsistent_of_draft Course.isReached_parcelsIndexed hs "parcels"
  have hthere : [16, 192, 0, 0, 0, 0, 0, 0, 0] ∈ (s.contents.get "parcels").records.map Prod.fst := by
    have hdrafted : [16, 192, 0, 0, 0, 0, 0, 0, 0] ∈
        (Course.parcels.drafted Course.parcelsIndexed.engine).records.map Prod.fst := by decide +kernel
    rw [StoreRef.drafted, hs] at hdrafted
    exact hdrafted
  have hrow : lastParcel.cursor.position =
      some ([16, 192, 20, 0, 0, 0, 0, 0, 0], [16, 192, 0, 0, 0, 0, 0, 0, 0]) := by decide +kernel
  obtain ⟨⟨c, d, hdelete, _, hdrops⟩, hupdate, hkeys⟩ := writes_hit_the_row isMade_lastParcel
    (by decide +kernel) (by decide +kernel) hrow ⟨⟨.int 5, trivial, hweight⟩, .int 2, trivial, hsecond⟩ hs
    (by decide +kernel) hconsistent hthere
  refine ⟨s, _, hs, hrow, ⟨c, d, hdelete, hdrops⟩, ?_, ?_⟩
  · obtain ⟨k, hk⟩ := Option.isSome_iff_exists.1
      (show ((lastParcel.update (.parcel 2 7)).result? Course.parcelsIndexed.engine).isSome = true by
        decide +kernel)
    obtain ⟨d, hd⟩ := exists_ok_of_result? hk
    have hproper : (Value.parcel 2 7).IsProper :=
      ⟨trivial, by rintro _ ⟨⟩; rfl, trivial, fun _ _ => rfl, trivial⟩
    obtain ⟨w, c, hclone, _, hexchanges⟩ := hupdate (.parcel 2 7) k d hproper hd
    exact ⟨w, k, c, d, hclone, hd, hexchanges⟩
  · refine hkeys (.single "number") rfl (.parcel 3 5) fun found hfound hencode => ?_
    have hthird : ((KeyPath.single "number").find? (.parcel 3 5)).bind (fun v => v.encodeKey.toOption) =
        some [16, 192, 8, 0, 0, 0, 0, 0, 0] := by decide +kernel
    rw [Option.mem_def.1 hfound, Option.bind_some, hencode] at hthird
    cases hthird

end CursorRef
end RecordStore
