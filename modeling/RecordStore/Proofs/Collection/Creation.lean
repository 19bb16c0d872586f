import RecordStore.Proofs.Collection.Writing

/-!
Making an index keeps a collection consistent. While the index is filled it agrees with the records
that were gone through so far; if it is refused half way it stays with what it got, and is flawed
from then on.
-/

namespace RecordStore

variable {i j : Index}

/-! ### Filling -/

theorem Index.unique_insert {key record : Bytes} (hcheck : i.checkUnique key record = .ok ())
    (h : i.spec.unique = true → ∀ d ∈ i.entries, ∀ e ∈ i.entries, d.1 = e.1 → d.2 = e.2) :
    i.spec.unique = true → ∀ d ∈ (i.insert (key, record)).entries,
      ∀ e ∈ (i.insert (key, record)).entries, d.1 = e.1 → d.2 = e.2 := by
  intro hu d hd e he hde
  rw [Index.insert, OrderedRows.mem_insertOnce Entry.isOrder] at hd he
  have hold {e : Entry} (he : e ∈ i.entries) (hkey : e.1 = key) : e.2 = record :=
    Collection.not_any_of_checkUnique hcheck hu he hkey
  rcases hd with rfl | hd
  · rcases he with rfl | he
    · rfl
    · exact (hold he hde.symm).symm
  · rcases he with rfl | he
    · exact hold hd hde
    · exact h hu d hd e he hde

namespace Collection

theorem fillKeys_name_spec {record : Bytes} {keys : List Bytes} {r : Except Failure Unit}
    (h : fillKeys record keys i = (r, j)) : j.name = i.name ∧ j.spec = i.spec := by
  induction keys generalizing i with
  | nil =>
      cases h
      exact ⟨rfl, rfl⟩
  | cons key rest ih =>
      simp only [fillKeys] at h
      split at h
      · cases h
        exact ⟨rfl, rfl⟩
      · obtain ⟨hname, hspec⟩ := ih h
        exact ⟨hname, hspec⟩

/-- An index after all index keys of a record were put into it. -/
theorem fillKeys_spec {record : Bytes} {keys : List Bytes} (h : fillKeys record keys i = (.ok (), j))
    (ha : i.entries.Pairwise fun d e => Entry.lt d e = true)
    (hu : i.spec.unique = true → ∀ d ∈ i.entries, ∀ e ∈ i.entries, d.1 = e.1 → d.2 = e.2) :
    (j.entries.Pairwise fun d e => Entry.lt d e = true) ∧
      (∀ e, e ∈ j.entries ↔ e ∈ i.entries ∨ e.2 = record ∧ e.1 ∈ keys) ∧
      (j.spec.unique = true → ∀ d ∈ j.entries, ∀ e ∈ j.entries, d.1 = e.1 → d.2 = e.2) := by
  induction keys generalizing i with
  | nil =>
      cases h
      exact ⟨ha, fun e => by simp, hu⟩
  | cons key rest ih =>
      simp only [fillKeys] at h
      split at h
      · cases h
      next hcheck =>
      obtain ⟨ha', hmem, hu'⟩ := ih h (OrderedRows.pairwise_insertOnce Entry.isOrder _ ha)
        (Index.unique_insert hcheck hu)
      refine ⟨ha', fun e => ?_, hu'⟩
      rw [hmem, Index.insert, OrderedRows.mem_insertOnce Entry.isOrder, List.mem_cons]
      constructor
      · rintro ((rfl | he) | ⟨he, hk⟩)
        · exact .inr ⟨rfl, .inl rfl⟩
        · exact .inl he
        · exact .inr ⟨he, .inr hk⟩
      · rintro (he | ⟨he, hk | hk⟩)
        · exact .inl (.inr he)
        · exact .inl (.inl (Prod.ext hk he))
        · exact .inr ⟨he, hk⟩

/-- An index that agrees with some records agrees with one more, once the index keys of that one
were put into it. -/
theorem indexes_fillKeys {done : List (Bytes × String)} {record : Bytes} {text : String} {v : Value}
    {keys : List Bytes} (hi : i.Indexes done) (hv : Value.loads text = .ok v)
    (hkeys : i.spec.keysFor v = .ok keys) (h : fillKeys record keys i = (.ok (), j)) :
    j.Indexes (done ++ [(record, text)]) := by
  have hspec := (fillKeys_name_spec h).2
  obtain ⟨ha, hmem, hu⟩ := fillKeys_spec h hi.ascending hi.unique
  refine ⟨?_, ha, fun e => ?_, hu⟩
  · intro r hr
    rw [hspec]
    rcases List.mem_append.1 hr with hr | hr
    · exact hi.keyed r hr
    · cases List.mem_singleton.1 hr
      exact ⟨v, keys, hv, hkeys⟩
  rw [hmem, hspec, hi.mem_iff]
  constructor
  · rintro (⟨s, w, ks, hs, hw⟩ | ⟨hrecord, hkey⟩)
    · exact ⟨s, w, ks, List.mem_append_left _ hs, hw⟩
    · refine ⟨text, v, keys, ?_, hv, hkeys, hkey⟩
      rw [hrecord]
      exact List.mem_append_right _ (List.mem_singleton_self _)
  · rintro ⟨s, w, ks, hs, hw, hks, hkey⟩
    rcases List.mem_append.1 hs with hs | hs
    · exact .inl ⟨s, w, ks, hs, hw, hks, hkey⟩
    · obtain ⟨hrecord, rfl⟩ := Prod.mk.inj (List.mem_singleton.1 hs)
      rw [hv] at hw
      cases hw
      rw [hkeys] at hks
      cases hks
      exact .inr ⟨hrecord, hkey⟩

theorem fill_name {records : List (Bytes × String)} {r : Except Failure Unit}
    (h : fill records i = (r, j)) : j.name = i.name := by
  induction records generalizing i with
  | nil =>
      cases h
      rfl
  | cons row rest ih =>
      simp only [fill] at h
      split at h
      · cases h
        rfl
      split at h
      · next hfill =>
        cases h
        exact (fillKeys_name_spec hfill).1
      · next hfill => exact (ih h).trans (fillKeys_name_spec hfill).1

/-- The run of a filling: the index agrees with the records that were gone through. -/
theorem indexes_fill {done records : List (Bytes × String)} (hi : i.Indexes done)
    (h : fill records i = (.ok (), j)) : j.Indexes (done ++ records) := by
  induction records generalizing i done with
  | nil =>
      cases h
      rw [List.append_nil]
      exact hi
  | cons row rest ih =>
      simp only [fill] at h
      split at h
      · cases h
      next keys hkeys =>
      obtain ⟨v, hv, hkeys⟩ := bind_eq_ok_iff.1 hkeys
      split at h
      · cases h
      · next hfill =>
        rw [List.append_cons]
        exact ih (indexes_fillKeys hi (Key.formatResult_eq_ok_iff.1 hv) hkeys hfill) h

/-! ### Making an index -/

theorem mem_insertIndex {indexes : List Index} : j ∈ insertIndex i indexes ↔ j = i ∨ j ∈ indexes := by
  induction indexes with
  | nil => rw [insertIndex, List.mem_singleton, or_iff_left List.not_mem_nil]
  | cons k rest ih =>
      rw [insertIndex]
      split
      · exact List.mem_cons
      · rw [List.mem_cons, ih, List.mem_cons, or_left_comm]

theorem names_insertIndex (i : Index) (indexes : List Index) :
    ((insertIndex i indexes).map Index.name).Perm (i.name :: indexes.map Index.name) := by
  induction indexes with
  | nil => exact .refl _
  | cons j rest ih =>
      rw [insertIndex]
      split
      · exact .refl _
      · exact (ih.cons _).trans (.swap _ _ _)

theorem index?_eq_none_iff {c : Collection} {name : String} :
    c.index? name = none ↔ name ∉ c.indexes.map Index.name := by
  rw [index?, List.find?_eq_none, List.mem_map, not_exists]
  refine forall_congr' fun i => ?_
  rw [beq_iff_eq, not_and]

variable {c d : Collection} {flawed : String → Prop}

/-- What comes of the making of an index: it is refused as there is one of its name, or it is put
among the others, and agrees with the records if nothing was refused. -/
theorem createIndex_cases {collection name : String} {spec : IndexSpec} {r : Except Failure Unit}
    (h : c.createIndex collection name spec = (r, d)) :
    (c.index? name).isSome = true ∧ (∃ f, r = .error f) ∧ d = c ∨
      c.index? name = none ∧ ∃ i : Index, i.name = name ∧
        d = { c with indexes := insertIndex i c.indexes } ∧ (r = .ok () → i.Indexes c.records) := by
  unfold createIndex at h
  split at h
  · next hsome =>
    cases h
    exact .inl ⟨hsome, ⟨_, rfl⟩, rfl⟩
  · next hnone =>
    cases hfill : fill c.records ⟨name, spec, []⟩ with
    | mk result i =>
        rw [hfill] at h
        cases h
        refine .inr ⟨Option.not_isSome_iff_eq_none.1 hnone, i, fill_name hfill, rfl, ?_⟩
        rintro rfl
        exact indexes_fill (indexes_nil name spec) hfill

theorem isConsistent_insertIndex {others : String → Prop} (h : c.IsConsistent flawed)
    (hnew : c.index? i.name = none) (hi : ¬others i.name → i.Indexes c.records)
    (hothers : ∀ j ∈ c.indexes, ¬others j.name → ¬flawed j.name) :
    { c with indexes := insertIndex i c.indexes : Collection }.IsConsistent others where
  ascending := h.ascending
  readable := h.readable
  names := (names_insertIndex i c.indexes).nodup_iff.2
    (List.nodup_cons.2 ⟨index?_eq_none_iff.1 hnew, h.names⟩)
  indexed j hj hn := by
    rcases mem_insertIndex.1 hj with rfl | hj
    · exact hi hn
    · exact h.indexed j hj (hothers j hj hn)

/-- An index that was made is not flawed, whatever was given up under its name before. -/
theorem isConsistent_createIndex {collection name : String} {spec : IndexSpec}
    (h : c.IsConsistent flawed) (hd : c.createIndex collection name spec = (.ok (), d)) :
    d.IsConsistent fun n => flawed n ∧ n ≠ name := by
  rcases createIndex_cases hd with ⟨_, ⟨_, hr⟩, _⟩ | ⟨hnew, i, rfl, rfl, hi⟩
  · cases hr
  · refine isConsistent_insertIndex h hnew (fun _ => hi rfl) fun j hj hn hf => hn ⟨hf, ?_⟩
    intro hname
    exact index?_eq_none_iff.1 hnew (hname ▸ List.mem_map_of_mem hj)

theorem isConsistent_createIndex_of_error {collection name : String} {spec : IndexSpec} {f : Failure}
    (h : c.IsConsistent flawed) (hd : c.createIndex collection name spec = (.error f, d)) :
    d.IsConsistent fun n => flawed n ∨ n = name ∧ c.index? name = none := by
  rcases createIndex_cases hd with ⟨_, _, rfl⟩ | ⟨hnew, i, rfl, rfl, _⟩
  · exact h.mono fun n hn => .inl hn
  · exact isConsistent_insertIndex h hnew (fun hn => absurd (.inr ⟨rfl, hnew⟩) hn)
      fun j _ hn hf => hn (.inl hf)

end Collection
end RecordStore
