import RecordStore.Proofs.Contents

/-!
Catalogs that grow and shrink. The names in the catalog are those of the collections with a header, in
order. A collection gains indexes when some are made that it does not have; all else of it stays, and
what it gains agrees with its records.
-/

namespace RecordStore

/-! ### Names -/

namespace Contents

variable {k : Contents} {name : String}

/-- The collections stand in the order of their names. -/
def IsOrdered (k : Contents) : Prop :=
  OrderedRows.Ascending (fun a b : String => decide (a < b)) k.collections

theorem IsOrdered.set (h : k.IsOrdered) (name : String) (c : Collection) : (k.set name c).IsOrdered :=
  OrderedRows.ascending_insert isOrder_name name c h

/-- The names are those of the collections that are in the catalog. -/
theorem mem_names_iff (h : k.IsOrdered) : name ∈ k.names ↔ k.contains name = true := by
  have hlookup (c : Collection) : (name, c) ∈ k.collections ↔ k.collections.lookup name = some c :=
    OrderedRows.mem_iff_lookup isOrder_name h
  unfold names contains get
  rw [List.mem_map]
  constructor
  · rintro ⟨⟨n, c⟩, hmem, rfl⟩
    obtain ⟨hmem, hheader⟩ := List.mem_filter.1 hmem
    rw [(hlookup c).1 hmem]
    exact hheader
  · intro hheader
    cases hc : k.collections.lookup name with
    | none =>
        rw [hc] at hheader
        cases hheader
    | some c =>
        rw [hc] at hheader
        exact ⟨(name, c), List.mem_filter.2 ⟨(hlookup c).2 hc, hheader⟩, rfl⟩

theorem pairwise_names (h : k.IsOrdered) : k.names.Pairwise (· < ·) := by
  refine List.pairwise_map.2 ((List.Pairwise.filter _ h).imp fun hlt => ?_)
  exact of_decide_eq_true hlt

theorem nodup_names (h : k.IsOrdered) : k.names.Nodup :=
  (pairwise_names h).imp fun hlt => String.ne_of_lt hlt

/-- Contents in order that differ from others at most under one name. -/
structure IsAltered (k : Contents) (name : String) (k' : Contents) : Prop where
  ordered : k'.IsOrdered
  others : ∀ n, n ≠ name → k'.get n = k.get n

theorem IsOrdered.isAltered_set (h : k.IsOrdered) (name : String) (c : Collection) :
    k.IsAltered name (k.set name c) :=
  ⟨h.set name c, fun _ hn => get_set_of_ne hn k c⟩

theorem IsAltered.trans {k₁ k₂ : Contents} (h₁ : k.IsAltered name k₁) (h₂ : k₁.IsAltered name k₂) :
    k.IsAltered name k₂ :=
  ⟨h₂.ordered, fun n hn => (h₂.others n hn).trans (h₁.others n hn)⟩

/-- Contents without the collections of some names. -/
def without (k : Contents) (names : List String) : Contents := names.foldl Contents.delete k

theorem isOrdered_without (h : k.IsOrdered) (names : List String) : (k.without names).IsOrdered := by
  induction names generalizing k with
  | nil => exact h
  | cons name rest ih => exact ih (h.set name .empty)

theorem get_without (k : Contents) (names : List String) (name : String) :
    (k.without names).get name = if name ∈ names then .empty else k.get name := by
  induction names generalizing k with
  | nil => rw [if_neg List.not_mem_nil]; rfl
  | cons first rest ih =>
      have hdelete := ih (k.delete first)
      rw [without, List.foldl_cons, ← without, hdelete]
      by_cases hrest : name ∈ rest
      · rw [if_pos hrest, if_pos (List.mem_cons_of_mem first hrest)]
      · rw [if_neg hrest]
        by_cases hfirst : name = first
        · subst hfirst
          rw [if_pos List.mem_cons_self]
          exact get_set_self k name .empty
        · rw [if_neg (by simp [hfirst, hrest])]
          exact get_set_of_ne hfirst k .empty

end Contents

/-! ### Indexes -/

namespace Collection

variable {c d : Collection} {name : String} {spec : IndexSpec}

theorem fill_spec {records : List (Bytes × String)} {i j : Index} {r : Except Failure Unit}
    (h : fill records i = (r, j)) : j.spec = i.spec := by
  induction records generalizing i with
  | nil =>
      cases h
      rfl
  | cons row rest ih =>
      simp only [fill] at h
      split at h
      · cases h
        rfl
      split at h
      · next hfill =>
        cases h
        exact (fillKeys_name_spec hfill).2
      · next hfill => exact (ih h).trans (fillKeys_name_spec hfill).2

/-- An index that was made was not there, has the definition it was to have and agrees with the
records. -/
theorem exists_of_createIndex {collection : String}
    (h : c.createIndex collection name spec = (.ok (), d)) : c.index? name = none ∧
      ∃ i : Index, i.name = name ∧ i.spec = spec ∧ i.Indexes c.records ∧
        d = { c with indexes := insertIndex i c.indexes } := by
  unfold createIndex at h
  split at h
  · cases h
  · next hnone =>
    cases hfill : fill c.records ⟨name, spec, []⟩ with
    | mk result i =>
        rw [hfill] at h
        cases h
        exact ⟨Option.not_isSome_iff_eq_none.1 hnone, i, fill_name hfill, fill_spec hfill,
          indexes_fill (indexes_nil name spec) hfill, rfl⟩

/-- An index is one of some that are defined, and agrees with some records. -/
def IsMadeOf (specs : List (String × IndexSpec)) (records : List (Bytes × String)) (i : Index) : Prop :=
  (i.name, i.spec) ∈ specs ∧ i.Indexes records

/-- A collection has the indexes of another one and some more that were made for its records. -/
structure Gains (c : Collection) (specs : List (String × IndexSpec)) (d : Collection) : Prop where
  header : d.header = c.header
  records : d.records = c.records
  kept : ∀ i ∈ c.indexes, i ∈ d.indexes
  made : ∀ s ∈ specs, ∃ i ∈ d.indexes, (i.name, i.spec) = s ∧ i.Indexes c.records
  only : ∀ i ∈ d.indexes, i ∈ c.indexes ∨ IsMadeOf specs c.records i
  names : (c.indexes.map Index.name).Nodup → (d.indexes.map Index.name).Nodup

theorem gains_nil (c : Collection) : c.Gains [] c :=
  ⟨rfl, rfl, fun _ hi => hi, nofun, fun _ hi => .inl hi, id⟩

theorem Gains.cons {collection : String} {specs : List (String × IndexSpec)} {e : Collection}
    (hd : c.createIndex collection name spec = (.ok (), d)) (h : d.Gains specs e) :
    c.Gains ((name, spec) :: specs) e := by
  obtain ⟨hnew, i, rfl, rfl, hi, rfl⟩ := exists_of_createIndex hd
  refine ⟨h.header, h.records, fun j hj => ?_, fun s hs => ?_, fun j hj => ?_, fun hn => ?_⟩
  · exact h.kept j (mem_insertIndex.2 (.inr hj))
  · rcases List.mem_cons.1 hs with rfl | hs
    · exact ⟨i, h.kept i (mem_insertIndex.2 (.inl rfl)), rfl, hi⟩
    · exact h.made s hs
  · rcases h.only j hj with hj | ⟨hspecs, hj⟩
    · rcases mem_insertIndex.1 hj with rfl | hj
      · exact .inr ⟨List.mem_cons_self, hi⟩
      · exact .inl hj
    · exact .inr ⟨List.mem_cons_of_mem _ hspecs, hj⟩
  · refine h.names ?_
    exact (names_insertIndex i c.indexes).nodup_iff.2
      (List.nodup_cons.2 ⟨index?_eq_none_iff.1 hnew, hn⟩)

/-- What a consistent collection gains leaves it consistent. -/
theorem Gains.isConsistent {specs : List (String × IndexSpec)} (h : c.Gains specs d)
    (hc : c.IsConsistent fun _ => False) : d.IsConsistent fun _ => False where
  ascending := h.records ▸ hc.ascending
  readable := h.records ▸ hc.readable
  names := h.names hc.names
  indexed i hi _ := by
    rw [h.records]
    rcases h.only i hi with hi | ⟨_, hi⟩
    · exact hc.indexed i hi id
    · exact hi

end Collection
end RecordStore
