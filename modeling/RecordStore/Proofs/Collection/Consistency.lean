import RecordStore.Collection.Write
import RecordStore.Proofs.Document.Stored
import RecordStore.Proofs.OrderedRows

/-!
Consistency of a collection. Each index has just the entries that the records call for, and a
unique one leads from no index key to two records. An index whose making was given up is flawed:
nothing is known of its entries, and it must not keep the others from being consistent.
-/

namespace RecordStore

/-- The entries that an index should have: those that lead to a record from one of its index
keys. -/
def IndexSpec.calledFor (spec : IndexSpec) (records : List (Bytes × String)) : Set Entry :=
  fun e => ∃ text v keys, (e.2, text) ∈ records ∧ Value.loads text = .ok v ∧
    spec.keysFor v = .ok keys ∧ e.1 ∈ keys

/-- An index agrees with some records: every record has index keys, the entries are those that the
records call for, in order, and a unique index has no index key for two records. -/
structure Index.Indexes (i : Index) (records : List (Bytes × String)) : Prop where
  keyed : ∀ r ∈ records, ∃ v keys, Value.loads r.2 = .ok v ∧ i.spec.keysFor v = .ok keys
  ascending : i.entries.Pairwise fun d e => Entry.lt d e = true
  mem_iff : ∀ e, e ∈ i.entries ↔ e ∈ i.spec.calledFor records
  unique : i.spec.unique = true → ∀ d ∈ i.entries, ∀ e ∈ i.entries, d.1 = e.1 → d.2 = e.2

namespace Collection

/-- The records are in order and can be read, no two indexes have one name, and each index that is
not flawed agrees with the records. -/
structure IsConsistent (c : Collection) (flawed : String → Prop) : Prop where
  ascending : OrderedRows.Ascending Bytes.lt c.records
  readable : ∀ r ∈ c.records, ∃ v, Value.loads r.2 = .ok v
  names : (c.indexes.map Index.name).Nodup
  indexed : ∀ i ∈ c.indexes, ¬flawed i.name → i.Indexes c.records

variable {c : Collection} {flawed : String → Prop}

theorem isConsistent_empty : empty.IsConsistent flawed where
  ascending := List.Pairwise.nil
  readable := nofun
  names := List.nodup_nil
  indexed := nofun

theorem IsConsistent.mono (h : c.IsConsistent flawed) {others : String → Prop}
    (hsub : ∀ name, flawed name → others name) : c.IsConsistent others where
  ascending := h.ascending
  readable := h.readable
  names := h.names
  indexed i hi hn := h.indexed i hi fun hf => hn (hsub _ hf)

/-- Only records and indexes count. -/
theorem IsConsistent.congr (h : c.IsConsistent flawed) {d : Collection}
    (hr : d.records = c.records) (hi : d.indexes = c.indexes) : d.IsConsistent flawed where
  ascending := hr ▸ h.ascending
  readable := hr ▸ h.readable
  names := hi ▸ h.names
  indexed := by
    rw [hr, hi]
    exact h.indexed

theorem text?_eq_some_iff (h : c.IsConsistent flawed) {key : Bytes} {text : String} :
    c.text? key = some text ↔ (key, text) ∈ c.records :=
  (OrderedRows.mem_iff_lookup Bytes.isOrder h.ascending).symm

theorem isSome_text?_iff (h : c.IsConsistent flawed) {key : Bytes} :
    (c.text? key).isSome = true ↔ ∃ text, (key, text) ∈ c.records := by
  rw [Option.isSome_iff_exists]
  exact exists_congr fun text => text?_eq_some_iff h

/-! ### Dropping records -/

/-- An index still agrees with the records when records and entries are dropped by the same test of
the key of a record. -/
theorem indexes_dropWhere {i : Index} {records : List (Bytes × String)} (h : i.Indexes records)
    {doomed test : Bytes → Bool} (ht : ∀ e ∈ i.entries, doomed e.2 = test e.2) :
    (i.dropWhere doomed).Indexes (records.filter fun r => !test r.1) where
  keyed r hr := h.keyed r (List.mem_of_mem_filter hr)
  ascending := h.ascending.filter _
  mem_iff e := by
    have hkept : e ∈ (i.dropWhere doomed).entries ↔ e ∈ i.entries ∧ test e.2 = false := by
      rw [Index.dropWhere, List.mem_filter, Bool.not_eq_true']
      exact and_congr_right fun he => by rw [ht e he]
    rw [hkept, h.mem_iff]
    constructor
    · rintro ⟨⟨text, v, keys, hmem, hv, hkeys, hkey⟩, htest⟩
      exact ⟨text, v, keys, List.mem_filter.2 ⟨hmem, by rw [htest]; rfl⟩, hv, hkeys, hkey⟩
    · rintro ⟨text, v, keys, hmem, hv, hkeys, hkey⟩
      obtain ⟨hmem, htest⟩ := List.mem_filter.1 hmem
      exact ⟨⟨text, v, keys, hmem, hv, hkeys, hkey⟩, Bool.not_eq_true' _ ▸ htest⟩
  unique hu d hd e he := h.unique hu d (List.mem_of_mem_filter hd) e (List.mem_of_mem_filter he)

/-- The key of an entry that agrees with the records is the key of a record. -/
theorem exists_mem_of_mem_entries {i : Index} {records : List (Bytes × String)}
    (h : i.Indexes records) {e : Entry} (he : e ∈ i.entries) : ∃ text, (e.2, text) ∈ records := by
  obtain ⟨text, _, _, hmem, _⟩ := (h.mem_iff e).1 he
  exact ⟨text, hmem⟩

theorem names_map {f : Index → Index} (hf : ∀ i, (f i).name = i.name) (indexes : List Index) :
    (indexes.map f).map Index.name = indexes.map Index.name := by
  rw [List.map_map]
  exact List.map_congr_left fun i _ => hf i

theorem isConsistent_delete (h : c.IsConsistent flawed) (conditions : List Condition) :
    (c.delete conditions).IsConsistent flawed where
  ascending := h.ascending.filter _
  readable r hr := h.readable r (List.mem_of_mem_filter hr)
  names := by
    rw [delete]
    simp only [names_map (f := fun i => i.dropWhere _) fun _ => rfl]
    exact h.names
  indexed := by
    intro i hi hn
    obtain ⟨j, hj, rfl⟩ := List.mem_map.1 hi
    have hindexes := h.indexed j hj hn
    refine indexes_dropWhere hindexes fun e he => ?_
    rw [(isSome_text?_iff h).2 (exists_mem_of_mem_entries hindexes he), Bool.and_true]

theorem indexes_nil (name : String) (spec : IndexSpec) : (Index.mk name spec []).Indexes [] where
  keyed := nofun
  ascending := List.Pairwise.nil
  mem_iff _ := ⟨nofun, fun ⟨_, _, _, hmem, _⟩ => absurd hmem List.not_mem_nil⟩
  unique _ := nofun

theorem isConsistent_clear (h : c.IsConsistent flawed) : c.clear.IsConsistent flawed where
  ascending := List.Pairwise.nil
  readable := nofun
  names := by
    rw [clear]
    simp only [names_map (f := fun i => { i with entries := [] }) fun _ => rfl]
    exact h.names
  indexed := by
    intro i hi _
    obtain ⟨j, _, rfl⟩ := List.mem_map.1 hi
    exact indexes_nil j.name j.spec

theorem isConsistent_deleteIndex (h : c.IsConsistent flawed) (name : String) :
    (c.deleteIndex name).IsConsistent flawed where
  ascending := h.ascending
  readable := h.readable
  names := h.names.sublist (List.filter_sublist.map Index.name)
  indexed i hi := h.indexed i (List.mem_of_mem_filter hi)

end Collection
end RecordStore
