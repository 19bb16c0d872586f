import RecordStore.Proofs.Collection.Scanning
import RecordStore.Proofs.Engine.Refinement

/-!
The order of records and entries. Whatever is done to a collection keeps its records and the entries of
its indexes in ascending order, also what fails half way, and also where an index has come to disagree
with the records. So whatever can be read in any state that calls lead to is in ascending order.
-/

namespace RecordStore

open Effect

/-- The entries of an index are in ascending order. -/
abbrev Index.IsAscending (i : Index) : Prop := i.entries.Pairwise fun d e => Entry.lt d e = true

/-- The records and the entries of each index are in ascending order. -/
structure Collection.IsAscending (c : Collection) : Prop where
  records : OrderedRows.Ascending Bytes.lt c.records
  indexes : ∀ i ∈ c.indexes, i.IsAscending

/-! ### Indexes -/

namespace Index

variable {i j : Index}

theorem isAscending_insert (h : i.IsAscending) (e : Entry) : (i.insert e).IsAscending :=
  OrderedRows.pairwise_insertOnce Entry.isOrder e h

theorem isAscending_dropWhere (h : i.IsAscending) (test : Bytes → Bool) :
    (i.dropWhere test).IsAscending :=
  h.filter _

theorem isAscending_updateIndex (h : i.IsAscending) (p : Collection.Plan) :
    (p.updateIndex i).IsAscending := by
  unfold Collection.Plan.updateIndex
  dsimp only
  split
  · exact Collection.foldl_insert_ascending _ (isAscending_dropWhere h _)
  · exact Collection.foldl_insert_ascending _ h

/-- An index that is filled stays in order, however far the filling comes. -/
theorem isAscending_fillKeys (record : Bytes) (keys : List Bytes) (h : i.IsAscending) :
    (Collection.fillKeys record keys i).2.IsAscending := by
  induction keys generalizing i with
  | nil => exact h
  | cons key rest ih =>
      unfold Collection.fillKeys
      split
      · exact h
      · exact ih (isAscending_insert h _)

theorem isAscending_fill (records : List (Bytes × String)) (h : i.IsAscending) :
    (Collection.fill records i).2.IsAscending := by
  induction records generalizing i with
  | nil => exact h
  | cons r rest ih =>
      unfold Collection.fill
      split
      · exact h
      · next keys _ =>
        -- the filling may stop among the keys of this record, and then leaves them half stored
        have hkeys := isAscending_fillKeys r.1 keys h
        split
        · next heq =>
          rw [heq] at hkeys
          exact hkeys
        · next heq =>
          rw [heq] at hkeys
          exact ih hkeys

end Index

/-! ### Collections -/

namespace Collection

variable {c d : Collection}

theorem isAscending_empty : empty.IsAscending := ⟨.nil, nofun⟩

/-- Only the records and the indexes count. -/
theorem IsAscending.congr (h : c.IsAscending) (hr : d.records = c.records)
    (hi : d.indexes = c.indexes) : d.IsAscending :=
  ⟨hr ▸ h.records, hi ▸ h.indexes⟩

theorem IsAscending.map_indexes (h : c.IsAscending) {f : Index → Index}
    (hf : ∀ i : Index, i.IsAscending → (f i).IsAscending) : ∀ i ∈ c.indexes.map f, i.IsAscending := by
  intro i hi
  obtain ⟨j, hj, rfl⟩ := List.mem_map.1 hi
  exact hf j (h.indexes j hj)

theorem isAscending_carryOut (h : c.IsAscending) (p : Plan) : (c.carryOut p).IsAscending where
  records := OrderedRows.ascending_insert Bytes.isOrder _ _ h.records
  indexes := h.map_indexes fun _ hi => Index.isAscending_updateIndex hi p

theorem isAscending_write (h : c.IsAscending) (name : String) (keying : Keying) (value key : Value)
    (overwrite : Bool) : (c.write name keying value key overwrite).2.IsAscending := by
  rcases write_cases (Prod.mk.eta (p := c.write name keying value key overwrite)).symm with
    ⟨_, _, hsame⟩ | ⟨_, _, _, c', p, _, _, hsame, _, _, hd⟩
  · exact h.congr hsame.records hsame.indexes
  · rw [hd]
    exact isAscending_carryOut (h.congr hsame.records hsame.indexes) p

theorem isAscending_createIndex (h : c.IsAscending) (collection name : String) (spec : IndexSpec) :
    (c.createIndex collection name spec).2.IsAscending := by
  unfold createIndex
  split
  · exact h
  · refine ⟨h.records, fun i hi => ?_⟩
    rcases mem_insertIndex.1 hi with rfl | hi
    · exact Index.isAscending_fill (i := ⟨name, spec, []⟩) c.records .nil
    · exact h.indexes i hi

theorem isAscending_delete (h : c.IsAscending) (conditions : List Condition) :
    (c.delete conditions).IsAscending where
  records := List.Pairwise.filter _ h.records
  indexes := h.map_indexes fun _ hi => Index.isAscending_dropWhere hi _

/-- Every change keeps a collection in order, also one that fails. -/
theorem isAscending_apply (h : c.IsAscending) (name : String) (change : Change) :
    (change.apply name c).IsAscending := by
  cases change with
  | create keying => exact h.congr rfl rfl
  | drop => exact isAscending_empty
  | createIndex index spec => exact isAscending_createIndex h name index spec
  | deleteIndex index => exact ⟨h.records, fun i hi => h.indexes i (List.mem_of_mem_filter hi)⟩
  | write keying value key overwrite => exact isAscending_write h name keying value key overwrite
  | delete range => exact isAscending_delete h _
  | clear => exact ⟨.nil, h.map_indexes fun _ _ => .nil⟩

/-- The rows of a source are in order, whether or not it is there. -/
theorem IsAscending.rows (h : c.IsAscending) (source : Option String) :
    (c.rows source).Pairwise fun a b => Entry.lt a b = true := by
  cases source with
  | none =>
      refine List.pairwise_map.2 (h.records.imp fun hlt => ?_)
      rw [Entry.lt, hlt, Bool.true_or]
  | some name =>
      rw [Collection.rows]
      cases hi : c.index? name with
      | none => exact .nil
      | some i => exact h.indexes i (List.mem_of_find?_eq_some hi)

end Collection

/-! ### States that calls lead to -/

theorem History.isAscending_contents (h : History) (name : String) :
    (h.contents.get name).IsAscending := by
  induction h with
  | nil => exact Collection.isAscending_empty
  | cons latest earlier ih =>
      obtain ⟨changed, change⟩ := latest
      change (((contents earlier).set changed _).get name).IsAscending
      by_cases hname : name = changed
      · subst hname
        rw [Contents.get_set_self]
        exact Collection.isAscending_apply ih name change
      · rw [Contents.get_set_of_ne hname]
        exact ih

/-- In every state that calls lead to, all contents have come about by changes. -/
theorem Engine.exists_follows_of_isReachable {e : Engine} (h : e.IsReachable) :
    ∃ t : Annals, t.engine = e ∧ t.IsTrue := by
  induction h with
  | initial => exact ⟨Annals.initial, rfl, Annals.isTrue_initial⟩
  | next c hreachable ih =>
      obtain ⟨t, rfl, ht⟩ := ih
      exact ⟨t.next c, rfl, Annals.isTrue_next ht (isOrderly_of_isReachable hreachable) c⟩

theorem StoreRef.isAscending_of_read {e d : Engine} {r : StoreRef} {c : Collection}
    (h : e.IsReachable) (hread : r.collection e = .ok c d) : c.IsAscending := by
  obtain ⟨t, rfl, ht⟩ := Engine.exists_follows_of_isReachable h
  obtain ⟨_, hs, _⟩ := exists_read_of_collection hread
  obtain ⟨w, hw⟩ := Action.hasUnderWay_of_read hs
  obtain ⟨d', hcollection⟩ := Annals.exists_collection_run ht hw.active hw.isOpen
  cases hcollection.symm.trans hread
  exact History.isAscending_contents _ r.name

end RecordStore
