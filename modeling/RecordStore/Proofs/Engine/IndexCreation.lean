import RecordStore.Proofs.Engine.Cataloguing
import RecordStore.Proofs.Engine.Upgrades

/-!
What the making of an index leaves behind when it fails. What can be told from the arguments and the
catalog is refused before anything is done. What is told by the records only shows while the index is
filled, and by then it stands among the others: it has the entries of all records that came before.
-/

namespace RecordStore

open Effect

/-! ### Filling half way -/

/-- An index is filled up to one of some records: it has the entries that the records before that one
call for, and beyond these none but entries that it calls for itself. -/
structure Index.IsFilledUpTo (i : Index) (passed : List (Bytes × String)) (row : Bytes × String) :
    Prop where
  leads : ∀ e ∈ i.spec.calledFor passed, e ∈ i.entries
  only : ∀ e ∈ i.entries, e ∈ i.spec.calledFor passed ∨ e ∈ i.spec.calledFor [row]

namespace Collection

/-- A collection with one more index. -/
def withIndex (c : Collection) (i : Index) : Collection :=
  { c with indexes := insertIndex i c.indexes }

variable {i j : Index} {f : Failure}

theorem fillKeys_bounds {record : Bytes} {keys : List Bytes} {r : Except Failure Unit}
    (h : fillKeys record keys i = (r, j)) : (∀ e ∈ i.entries, e ∈ j.entries) ∧
      ∀ e ∈ j.entries, e ∈ i.entries ∨ e.2 = record ∧ e.1 ∈ keys := by
  induction keys generalizing i with
  | nil =>
      cases h
      exact ⟨fun _ he => he, fun _ he => .inl he⟩
  | cons key rest ih =>
      simp only [fillKeys] at h
      split at h
      · cases h
        exact ⟨fun _ he => he, fun _ he => .inl he⟩
      · obtain ⟨hkept, honly⟩ := ih h
        simp only [Index.insert, OrderedRows.mem_insertOnce Entry.isOrder] at hkept honly
        refine ⟨fun e he => hkept e (.inr he), fun e he => ?_⟩
        rcases honly e he with (rfl | he) | ⟨hrecord, hkey⟩
        · exact .inr ⟨rfl, List.mem_cons_self⟩
        · exact .inl he
        · exact .inr ⟨hrecord, List.mem_cons_of_mem key hkey⟩

/-- An index that is refused while it is filled is filled up to one of the records. -/
theorem exists_isFilledUpTo {done records : List (Bytes × String)} (hi : i.Indexes done)
    (h : fill records i = (.error f, j)) : ∃ passed row rest, records = passed ++ row :: rest ∧
      j.spec = i.spec ∧ j.IsFilledUpTo (done ++ passed) row := by
  induction records generalizing i done with
  | nil => cases h
  | cons row rest ih =>
      simp only [fill] at h
      split at h
      · cases h
        refine ⟨[], row, rest, rfl, rfl, ?_⟩
        rw [List.append_nil]
        exact ⟨fun e he => (hi.mem_iff e).2 he, fun e he => .inl ((hi.mem_iff e).1 he)⟩
      next keys hkeys =>
      obtain ⟨v, hv, hkeys⟩ := bind_eq_ok_iff.1 hkeys
      have hloads := Key.formatResult_eq_ok_iff.1 hv
      split at h
      · next hfill =>
        cases h
        obtain ⟨hname, hspec⟩ := fillKeys_name_spec hfill
        obtain ⟨hkept, honly⟩ := fillKeys_bounds hfill
        refine ⟨[], row, rest, rfl, hspec, ?_⟩
        rw [List.append_nil]
        constructor
        · rw [hspec]
          exact fun e he => hkept e ((hi.mem_iff e).2 he)
        · rw [hspec]
          intro e he
          rcases honly e he with he | ⟨hrecord, hkey⟩
          · exact .inl ((hi.mem_iff e).1 he)
          · exact .inr ⟨row.2, v, keys, List.mem_singleton.2 (Prod.ext hrecord rfl), hloads, hkeys, hkey⟩
      · next hfill =>
        obtain ⟨passed, other, after, rfl, hspec, hfilled⟩ :=
          ih (indexes_fillKeys hi hloads hkeys hfill) h
        refine ⟨row :: passed, other, after, rfl, hspec.trans (fillKeys_name_spec hfill).2, ?_⟩
        rw [List.append_cons]
        exact hfilled

/-- What comes of the making of an index that fails: there is one of its name, or it is put among the
others as far as it was filled. -/
theorem createIndex_error_cases {c d : Collection} {collection name : String} {spec : IndexSpec}
    (h : c.createIndex collection name spec = (.error f, d)) :
    (c.index? name).isSome = true ∧ d = c ∨
      c.index? name = none ∧ ∃ i passed row rest, i.name = name ∧ i.spec = spec ∧
        c.records = passed ++ row :: rest ∧ i.IsFilledUpTo passed row ∧
          d = c.withIndex i := by
  unfold createIndex at h
  split at h
  · next hsome =>
    cases h
    exact .inl ⟨hsome, rfl⟩
  · next hnone =>
    cases hfill : fill c.records ⟨name, spec, []⟩ with
    | mk result i =>
        rw [hfill] at h
        cases h
        obtain ⟨passed, row, rest, hrecords, hspec, hfilled⟩ :=
          exists_isFilledUpTo (indexes_nil name spec) hfill
        exact .inr ⟨Option.not_isSome_iff_eq_none.1 hnone, i, passed, row, rest, fill_name hfill, hspec,
          hrecords, hfilled, rfl⟩

end Collection

/-! ### Traces -/

/-- The same indexes with the same entries, in all collections. -/
def Contents.SameIndexes (s t : Contents) : Prop := ∀ name, (t.get name).indexes = (s.get name).indexes

/-- In every state that calls lead to, the collections stand in the order of their names. -/
theorem Engine.isOrdered_of_isReachable {e : Engine} (he : e.IsReachable) :
    e.AllContents Contents.IsOrdered := by
  refine allContents_of_isReachable .nil (fun s mode c hs => ?_) he
  cases c.change? mode s with
  | none => exact hs
  | some made => exact hs.set made.1 _

/-- A collection with an index that is put where it was leaves the contents as they are. -/
theorem Contents.set_get {s : Contents} (hs : s.IsOrdered) {name : String}
    (h : (s.get name).indexes ≠ []) : s.set name (s.get name) = s := by
  unfold get at h
  cases hlookup : s.collections.lookup name with
  | none =>
      rw [hlookup] at h
      exact absurd rfl h
  | some c =>
      rw [set, get, hlookup, Option.getD_some, OrderedRows.insert_of_lookup isOrder_name hs hlookup]

/-- One more index is a difference. -/
theorem Contents.not_sameIndexes_withIndex (s : Contents) (name : String) (i : Index) :
    ¬s.SameIndexes (s.set name ((s.get name).withIndex i)) := by
  intro hsame
  have hnames := (Collection.names_insertIndex i (s.get name).indexes).length_eq
  have hindexes : Collection.insertIndex i (s.get name).indexes = (s.get name).indexes := by
    have hsame := hsame name
    rw [get_set_self] at hsame
    exact hsame
  rw [hindexes, List.length_cons] at hnames
  exact Nat.succ_ne_self _ hnames.symm

namespace StoreRef

variable {e d : Engine} {s : Store} {r : StoreRef} {name keyPath unique multiEntry : Value} {f : Failure}

/-- What comes of the making of an index that fails: nothing was done, or an index was put among the
others that was filled up to one of the records. -/
theorem createIndex_error_cases (he : e.IsReachable) (hs : e.draft? r.transaction = some s)
    (hmode : (e.transaction r.transaction).mode = .versionchange)
    (h : r.createIndex name keyPath unique multiEntry e = .error f d) :
    (r.indexCreation? name keyPath unique multiEntry = none ∨
        ((s.contents.get r.name).index? name.display).isSome = true) ∧ d = e ∨
      ∃ i passed row rest, r.indexCreation? name keyPath unique multiEntry =
          some (r.name, .createIndex name.display i.spec) ∧
        (s.contents.get r.name).index? name.display = none ∧ i.name = name.display ∧
        (s.contents.get r.name).records = passed ++ row :: rest ∧ i.IsFilledUpTo passed row ∧
        d = e.redraft r.transaction
          { s with contents := s.contents.set r.name ((s.contents.get r.name).withIndex i) } := by
  have hleads := (leads_createIndex hs name keyPath unique multiEntry).of_error rfl h
  have hcases := createIndex_cases hs name keyPath unique multiEntry
  rw [if_pos hmode] at hleads hcases
  rcases hcases with ⟨hnone, _, hfails⟩ | ⟨spec, hmade, hmakes⟩
  · rw [hfails] at h
    cases h
    exact .inl ⟨.inl hnone, rfl⟩
  · cases hcreate : (s.contents.get r.name).createIndex r.name name.display spec with
    | mk result c =>
        cases result with
        | ok u =>
            obtain ⟨i, d', hmakes⟩ := hmakes c hcreate
            cases h.symm.trans hmakes
        | error f' =>
            rw [hmade] at hleads
            change d = e.redraft r.transaction ⟨s.version, s.contents.set r.name
              ((s.contents.get r.name).createIndex r.name name.display spec).2⟩ at hleads
            rw [hcreate] at hleads
            rcases Collection.createIndex_error_cases hcreate with
              ⟨hsome, rfl⟩ | ⟨hnone, i, passed, row, rest, hname, rfl, hrecords, hfilled, rfl⟩
            · -- what is put back is the collection as it was
              have hindexes : (s.contents.get r.name).indexes ≠ [] := by
                intro hnil
                rw [Collection.index?, hnil] at hsome
                cases hsome
              rw [Contents.set_get ((Engine.isOrdered_of_isReachable he).draft hs) hindexes,
                Engine.redraft_self hs] at hleads
              exact .inl ⟨.inr hsome, hleads⟩
            · exact .inr ⟨i, passed, row, rest, hmade, hnone, hname, hrecords, hfilled, hleads⟩

/-- A call that fails to make an index in an upgrade leaves no trace exactly if it is refused for its
arguments or for an index of its name. Then nothing at all is changed. If it is refused for a record,
one more index is left with the entries of all records before that one; the draft is otherwise as it was,
and this is what the upgrade commits when it goes on. -/
theorem createIndex_leaves_no_trace_iff (he : e.IsReachable) (hs : e.draft? r.transaction = some s)
    (hmode : (e.transaction r.transaction).mode = .versionchange)
    (h : r.createIndex name keyPath unique multiEntry e = .error f d) :
    ∃ t, d.draft? r.transaction = some t ∧
      (s.contents.SameIndexes t.contents ↔ r.indexCreation? name keyPath unique multiEntry = none ∨
        ((s.contents.get r.name).index? name.display).isSome = true) ∧
      (s.contents.SameIndexes t.contents → d = e) ∧
      (¬s.contents.SameIndexes t.contents → ∃ i passed row rest, i.name = name.display ∧
        (s.contents.get r.name).records = passed ++ row :: rest ∧ i.IsFilledUpTo passed row ∧
          t = { s with contents := s.contents.set r.name ((s.contents.get r.name).withIndex i) }) ∧
      ∀ id old new, ∃ d', Action.Opening.conclude (.upgrade id r.transaction old new) (.ok ()) d = .ok id d' ∧
        d'.store (d.connection (d.transaction r.transaction).connection).path =
          { t with version := new } := by
  have hcommits {t : Store} (ht : d.draft? r.transaction = some t) (id old new : Nat) :
      ∃ d', Action.Opening.conclude (.upgrade id r.transaction old new) (.ok ()) d = .ok id d' ∧
        d'.store (d.connection (d.transaction r.transaction).connection).path =
          { t with version := new } :=
    ⟨_, Action.conclude_run_of_draft ht id old new, Engine.store_keep_self d _ { t with version := new }⟩
  rcases createIndex_error_cases he hs hmode h with
    ⟨hrefused, rfl⟩ | ⟨i, passed, row, rest, hmade, hnone, hname, hrecords, hfilled, rfl⟩
  · exact ⟨s, hs, iff_of_true (fun _ => rfl) hrefused, fun _ => rfl,
      fun hnot => absurd (fun _ => rfl) hnot, hcommits hs⟩
  · have htrace := Contents.not_sameIndexes_withIndex s.contents r.name i
    refine ⟨_, Engine.draft?_redraft hs _, iff_of_false htrace ?_, fun hsame => absurd hsame htrace,
      fun _ => ⟨i, passed, row, rest, hname, hrecords, hfilled, rfl⟩,
      hcommits (Engine.draft?_redraft hs _)⟩
    rw [hmade, hnone]
    rintro (hrefused | hrefused) <;> cases hrefused

end StoreRef

/-! ### Two equal numbers -/

/-- A collection that the first upgrade of a store makes. -/
def StoreRef.twins : StoreRef := ⟨0, "twins", ⟨none, false⟩⟩

/-- An upgrade that has stored two equal numbers and made an index over them. -/
def Engine.twinsIndexed : Engine := initial.afterCalls
  [.beginOpen "path" (.int 1) none,
    .createCollection 0 (.text "twins") .null (.bool false),
    .put StoreRef.twins (.int 5) (.int 1),
    .put StoreRef.twins (.int 5) (.int 2),
    .createIndex StoreRef.twins (.text "value") (.text "") (.bool false) (.bool false)]

namespace StoreRef

theorem isReachable_twinsIndexed : Engine.twinsIndexed.IsReachable :=
  Engine.isReachable_afterCalls .initial _

theorem exists_draft_twinsIndexed : ∃ s, Engine.twinsIndexed.draft? twins.transaction = some s :=
  Option.isSome_iff_exists.1 (by decide +kernel)

/-- Another index of the same name is refused, and nothing is changed. -/
theorem createIndex_leaves_no_trace_iff_twins : ∃ s f,
    Engine.twinsIndexed.draft? twins.transaction = some s ∧
    (Engine.twinsIndexed.transaction twins.transaction).mode = .versionchange ∧
    twins.createIndex (.text "value") (.text "") (.bool true) (.bool false) Engine.twinsIndexed =
      .error f Engine.twinsIndexed := by
  obtain ⟨s, hs⟩ := exists_draft_twinsIndexed
  have hmode : (Engine.twinsIndexed.transaction twins.transaction).mode = .versionchange := by
    decide +kernel
  obtain ⟨f, d, h⟩ := exists_error_of_result? (s := Engine.twinsIndexed)
    (a := twins.createIndex (.text "value") (.text "") (.bool true) (.bool false))
    (Option.isNone_iff_eq_none.1 (by decide +kernel))
  have hthere : ((((Engine.twinsIndexed.draft? twins.transaction).getD default).contents.get
      twins.name).index? (Value.text "value").display).isSome = true := by decide +kernel
  rw [hs, Option.getD_some] at hthere
  obtain ⟨t, _, hiff, hsame, _⟩ :=
    createIndex_leaves_no_trace_iff isReachable_twinsIndexed hs hmode h
  exact ⟨s, f, hs, hmode, by rw [h, hsame (hiff.2 (.inr hthere))]⟩

/-- A unique index over them is refused at the second number. The upgrade then goes on with the index,
which has the first number only, and commits it. -/
theorem createIndex_leaves_trace_twins : ∃ f d d',
    twins.createIndex (.text "once") (.text "") (.bool true) (.bool false) Engine.twinsIndexed =
      .error f d ∧
    Action.Opening.conclude (.upgrade 0 0 0 1) (.ok ()) d = .ok 0 d' ∧
    (((d'.store "path").contents.get "twins").index? "once").map Index.entries =
      some [([16, 192, 20, 0, 0, 0, 0, 0, 0], [16, 191, 240, 0, 0, 0, 0, 0, 0])] := by
  obtain ⟨f, d, h⟩ := exists_error_of_result? (s := Engine.twinsIndexed)
    (a := twins.createIndex (.text "once") (.text "") (.bool true) (.bool false))
    (Option.isNone_iff_eq_none.1 (by decide +kernel))
  have hafter : (twins.createIndex (.text "once") (.text "") (.bool true) (.bool false)).after
    Engine.twinsIndexed = d := after_of_error h
  obtain ⟨d', hd'⟩ := exists_ok_of_result? (a := Action.Opening.conclude (.upgrade 0 0 0 1) (.ok ()))
    (s := d) (x := 0) (by rw [← hafter]; decide +kernel)
  refine ⟨f, d, d', h, hd', ?_⟩
  have hafter' : (Action.Opening.conclude (.upgrade 0 0 0 1) (.ok ())).after d = d' := after_of_ok hd'
  rw [← hafter', ← hafter]
  decide +kernel

end StoreRef
end RecordStore
