import RecordStore.Proofs.Cursor.Enumeration
import RecordStore.Proofs.Document.Keys
import RecordStore.Proofs.Engine.Regularity

/-!
Writing back under a cursor. A record that is written back keeps its key: the key that was found in the
value is found again in its clone, or the write fails. So all keys stay, the record under the key of the
cursor is the clone, all other records are as they were, and no unique index had an index key of the
clone for another record.
-/

namespace RecordStore

variable {c d : Collection} {name : String} {keying : Keying} {key record v : Value} {b : Bytes}

/-! ### Indexes -/

/-- What becomes of an index when the record under a key is replaced: it may have the index keys of the
new record, and then has them beside the entries of other records. -/
structure Index.Follows (i : Index) (key : Bytes) (v : Value) (j : Index) : Prop where
  spec : j.spec = i.spec
  keyed : ∃ keys, i.spec.keysFor v = .ok keys ∧ (∀ k ∈ keys, i.checkUnique k key = .ok ()) ∧
    ∀ k ∈ keys, (k, key) ∈ j.entries
  others : ∀ e ∈ i.entries, e.2 ≠ key → e ∈ j.entries

namespace Collection

/-- The entries that are planned for an index among them those of its own keys for the record. -/
theorem exists_keys_of_planEntries {indexes : List Index} {entries : List (String × Bytes)}
    (h : planEntries b v indexes = .ok entries) : ∀ i ∈ indexes, ∃ keys, i.spec.keysFor v = .ok keys ∧
      (∀ k ∈ keys, i.checkUnique k b = .ok ()) ∧ ∀ k ∈ keys, (i.name, k) ∈ entries := by
  induction indexes generalizing entries with
  | nil => exact nofun
  | cons i rest ih =>
      simp only [planEntries] at h
      obtain ⟨keys, hkeys, h⟩ := bind_eq_ok_iff.1 h
      obtain ⟨_, hunique, h⟩ := bind_eq_ok_iff.1 h
      obtain ⟨others, hothers, h⟩ := bind_eq_ok_iff.1 h
      cases h
      refine List.forall_mem_cons.2 ⟨⟨keys, hkeys, checkUnique_of_checkAllUnique hunique, ?_⟩, ?_⟩
      · exact fun k hk => List.mem_append_left _ (List.mem_map_of_mem hk)
      · intro j hj
        obtain ⟨keys', hkeys', hunique', hmem⟩ := ih hothers j hj
        exact ⟨keys', hkeys', hunique', fun k hk => List.mem_append_right _ (hmem k hk)⟩

theorem follows_updateIndex {p : Plan} {i : Index} (hi : i ∈ c.indexes)
    (h : planEntries p.key v c.indexes = .ok p.entries) : i.Follows p.key v (p.updateIndex i) := by
  obtain ⟨keys, hkeys, hunique, hentries⟩ := exists_keys_of_planEntries h i hi
  refine ⟨(name_spec_updateIndex p i).2, ⟨keys, hkeys, hunique, ?_⟩, ?_⟩
  · exact fun k hk => mem_updateIndex_iff.2 (.inr ⟨rfl, hentries k hk⟩)
  · intro e he hne
    refine mem_updateIndex_iff.2 (.inl ?_)
    split
    · exact List.mem_filter.2 ⟨he, by simpa using hne⟩
    · exact he

/-! ### Collections -/

/-- What becomes of a collection when the record under a key is replaced: the keys stay, the new record
is under its key, and nothing else is under any other. -/
structure Replaces (c : Collection) (key : Bytes) (v : Value) (d : Collection) : Prop where
  keys : d.records.map Prod.fst = c.records.map Prod.fst
  own : d.view key = some v
  others : ∀ other, other ≠ key → d.text? other = c.text? other
  indexes : ∃ f : Index → Index, d.indexes = c.indexes.map f ∧ ∀ i ∈ c.indexes, i.Follows key v (f i)

theorem mem_keys_of_text? {text : String} (h : c.text? b = some text) : b ∈ c.records.map Prod.fst :=
  List.mem_map_of_mem (OrderedRows.mem_of_lookup h)

/-- A planned write in place of a record replaces it. -/
theorem replaces_carryOut {p : Plan} (hc : OrderedRows.Ascending Bytes.lt c.records)
    (hthere : p.key ∈ c.records.map Prod.fst) (hentries : planEntries p.key v c.indexes = .ok p.entries)
    (hloads : Value.loads p.text = .ok v) : c.Replaces p.key v (c.carryOut p) where
  keys := OrderedRows.keys_insert_of_mem Bytes.isOrder p.text hc hthere
  own := by rw [view_carryOut hloads, Function.update_self]
  others other hother := OrderedRows.lookup_insert_of_ne Bytes.isOrder hother p.text c.records
  indexes := ⟨p.updateIndex, rfl, fun _ hi => follows_updateIndex hi hentries⟩

/-- A collection after the record under a cursor, which shows a key, was written back. -/
structure WritesBack (c : Collection) (name : String) (keying : Keying) (key record : Value)
    (d : Collection) : Prop where
  kept : ∀ path ∈ keying.keyPath, Cursor.checkKept path key record = .ok ()
  written : ∃ k, c.write name keying record (if keying.keyPath.isSome then .null else key) true =
    (.ok k, d)

/-- A record that may be written back under a cursor has the key that the cursor shows. -/
theorem exists_key_of_checkKept {path : KeyPath} (h : Cursor.checkKept path key record = .ok ())
    (hkey : key.encodeKey = .ok b) :
    ∃ found, path.find? record = some found ∧ found.encodeKey = .ok b := by
  unfold Cursor.checkKept at h
  split at h
  · cases h
  · next found hfound =>
    split at h
    · obtain ⟨order, horder, h⟩ := bind_eq_ok_iff.1 h
      obtain ⟨a, ha, horder⟩ := bind_eq_ok_iff.1 horder
      obtain ⟨b', hb, horder⟩ := bind_eq_ok_iff.1 horder
      cases hkey.symm.trans hb
      cases horder
      split at h
      · next heq =>
        rw [Bytes.compare_eq_iff.1 heq] at ha
        exact ⟨found, hfound, ha⟩
      · cases h
    · cases h

theorem isNull_of_encodeKey (h : key.encodeKey = .ok b) : key.isNull = false := by
  cases key with
  | null => cases h
  | _ => rfl

/-- What a used key comes to, if anything. -/
theorem eq_of_useKey {k v : Value} (h : c.useKey keying key record = (.ok (k, v), d)) :
    k = key ∧ v = record := by
  rcases (useKey_cases h).2 with ⟨_, h⟩ | h
  · cases h
  · cases h
    exact ⟨rfl, rfl⟩

/-- The key of a clone that is written back is the one that the value has. -/
theorem key_of_resolveKey {k w clone : Value} (hgenerates : keying.GeneratesSingly) (hb : b.IsDateFree)
    (hkey : key.encodeKey = .ok b) (hreturns : record.Returns clone)
    (hkept : ∀ path ∈ keying.keyPath, Cursor.checkKept path key record = .ok ())
    (h : c.resolveKey name keying clone (if keying.keyPath.isSome then .null else key) =
      (.ok (k, w), d)) : k.encodeKey = .ok b ∧ w = clone := by
  unfold resolveKey at h
  cases hpath : keying.keyPath with
  | none =>
      simp only [hpath, Option.isSome_none, Bool.false_eq_true, if_false, isNull_of_encodeKey hkey,
        Value.isValidKey_of_encodeKey hkey, if_true] at h
      obtain ⟨rfl, rfl⟩ := eq_of_useKey h
      exact ⟨hkey, rfl⟩
  | some path =>
      obtain ⟨found, hfound, hencode⟩ := exists_key_of_checkKept (hkept path hpath) hkey
      have hdates : found.IsDateFree := by
        obtain ⟨v, hv, hv'⟩ := hb
        exact Value.isDateFree_of_encodeKey hencode hv' hv
      simp only [hpath, Option.isSome_some, if_true, Value.isNull, Bool.not_true, Bool.false_eq_true,
        if_false] at h
      rcases KeyPath.find?_of_returns hreturns hfound with ⟨other, hother, hreturns⟩ | ⟨hnone, hplace⟩
      · have hencode' := Value.encodeKey_of_returns hreturns hdates hencode
        simp only [hother, Value.isValidKey_of_encodeKey hencode', if_true] at h
        obtain ⟨rfl, rfl⟩ := eq_of_useKey h
        exact ⟨hencode', rfl⟩
      · -- a key would have to be generated, and there is no way to put it into the clone
        simp only [hnone] at h
        split at h
        · next hauto =>
          cases path with
          | compound paths => exact absurd hpath (hgenerates hauto paths)
          | single p =>
              unfold useGenerated at h
              split at h
              · cases h
              · simp only [KeyPath.inject, hplace p rfl] at h
                cases h
        · cases h

/-- A record is written back by a plan for its clone under the key of the cursor. -/
theorem WritesBack.exists_plan (h : c.WritesBack name keying key record d)
    (hgenerates : keying.GeneratesSingly) (hb : b.IsDateFree) (hkey : key.encodeKey = .ok b)
    (hproper : record.IsProper) : ∃ k v c' p, record.clone = .ok v ∧ SameData c c' ∧
      c'.plan name k v true = .ok p ∧ p.key = b ∧ d = c'.carryOut p := by
  obtain ⟨k, hwrite⟩ := h.written
  rcases write_cases hwrite with ⟨_, hf, _⟩ | ⟨k, v, w, c', p, hclone, _, hsame, hresolve, hplan, rfl⟩
  · cases hf
  · obtain ⟨hk, rfl⟩ := key_of_resolveKey hgenerates hb hkey (Value.returns_of_clone hproper hclone)
      h.kept hresolve
    exact ⟨k, w, c', p, hclone, hsame, hplan, Except.ok.inj ((plan_spec hplan).1.symm.trans hk), rfl⟩

/-- A record that was written back replaces the one under the key of the cursor. -/
theorem WritesBack.exists_replaces (h : c.WritesBack name keying key record d)
    (hgenerates : keying.GeneratesSingly) (hc : OrderedRows.Ascending Bytes.lt c.records)
    (hb : b.IsDateFree) (hkey : key.encodeKey = .ok b) (hthere : b ∈ c.records.map Prod.fst)
    (hproper : record.IsProper) : ∃ v, record.clone = .ok v ∧ c.Replaces b v d := by
  obtain ⟨k, v, c', p, hclone, hsame, hplan, rfl, rfl⟩ := h.exists_plan hgenerates hb hkey hproper
  obtain ⟨_, _, _, hentries, hdumps⟩ := plan_spec hplan
  have hreplaces : c'.Replaces p.key v (c'.carryOut p) :=
    replaces_carryOut (hsame.records ▸ hc) (hsame.records ▸ hthere) hentries
      (Value.loads_of_dumps (Value.isStored_of_clone hclone) hdumps)
  refine ⟨v, hclone, ?_, hreplaces.own, ?_, ?_⟩
  · rw [hreplaces.keys, hsame.records]
  · intro other hother
    rw [hreplaces.others other hother, text?, text?, hsame.records]
  · rw [← hsame.indexes]
    exact hreplaces.indexes

end Collection
end RecordStore
