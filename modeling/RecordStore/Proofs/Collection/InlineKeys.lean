import RecordStore.Proofs.Collection.Duplicates
import RecordStore.Proofs.Document.Keys
import RecordStore.Proofs.Engine.Histories
import RecordStore.Proofs.Engine.Regularity

/-!
Keys that are inside their records. In a collection with a key path each record is under the key that
the path finds in it: the key was found there when the record was written, or it was generated and put
there, and the record comes back from storage as it was written. A write of a caller who knows another
keying would break this, and so would a tag on the path.
-/

namespace RecordStore

/-! ### Keys that were written into a record -/

namespace KeyPath

theorem find?_of_inject {path : String} {key v w : Value} (hv : find? (single path) v = none)
    (h : inject path key v = .ok w) : find? (single path) w = some key := by
  have hpath : path ≠ "" := by
    rintro rfl
    cases hv
  unfold inject at h
  split at h
  · next hplace =>
    cases h
    rw [find?, findSingle, if_neg hpath]
    exact follow_place hplace
  · cases h

end KeyPath

namespace Collection

variable {c d : Collection} {path : KeyPath}

/-- Whatever key a record gets where there is a key path, the path finds it in the record that is
written. -/
theorem find?_of_resolveKey {name : String} {keying : Keying} {record key k v : Value}
    (hpath : keying.keyPath = some path) (hgenerates : keying.GeneratesSingly)
    (h : c.resolveKey name keying record key = (.ok (k, v), d)) : path.find? v = some k := by
  unfold resolveKey at h
  rw [hpath] at h
  dsimp only at h
  split at h
  · cases h
  cases hfind : path.find? record with
  | some found =>
      rw [hfind] at h
      dsimp only at h
      split at h
      · rcases (useKey_cases h).2 with ⟨_, hf⟩ | hk
        · cases hf
        · cases hk
          exact hfind
      · cases h
  | none =>
      rw [hfind] at h
      dsimp only at h
      split at h
      · next hauto =>
        rcases (useGenerated_cases (some path) (by rintro _ ⟨⟩; exact hfind) h).2 with
          ⟨_, hf⟩ | ⟨n, w, hn, _, hwith⟩
        · cases hf
        · cases hn
          cases path with
          | single p =>
              rw [recordWith, hfind] at hwith
              exact KeyPath.find?_of_inject hfind hwith
          | compound ps => exact absurd hpath (hgenerates hauto ps)
      · cases h

/-! ### Records under the keys that are in them -/

/-- Each record is under the encoding of the key that a key path finds in it. -/
def KeysInline (path : KeyPath) (c : Collection) : Prop :=
  ∀ r ∈ c.records, ∃ v found, Value.loads r.2 = .ok v ∧ path.find? v = some found ∧
    found.isValidKey = true ∧ found.encodeKey = .ok r.1

theorem KeysInline.of_subset (h : c.KeysInline path) (hsub : ∀ r ∈ d.records, r ∈ c.records) :
    d.KeysInline path :=
  fun r hr => h r (hsub r hr)

/-- A write by a caller who knows the key path keeps the keys inside the records. -/
theorem keysInline_write (h : c.KeysInline path) {keying : Keying} (hpath : keying.keyPath = some path)
    (htagFree : path.IsTagFree) (hgenerates : keying.GeneratesSingly) (name : String)
    (value key : Value) (overwrite : Bool) :
    (c.write name keying value key overwrite).2.KeysInline path := by
  cases hw : c.write name keying value key overwrite with
  | mk result d =>
      rcases write_cases hw with
        ⟨_, _, hsame⟩ | ⟨k, record, v, c', p, hclone, _, hsame, hresolve, hplan, rfl⟩
      · exact h.of_subset fun r hr => hsame.records ▸ hr
      · intro r hr
        rcases OrderedRows.mem_insert_of_mem hr with rfl | hr
        · obtain ⟨hencode, _, _, _, hdumps⟩ := plan_spec hplan
          have hstored : v.IsStored := by
            refine (isStored_of_resolveKey ?_ (Value.isStored_of_clone hclone) hresolve).1
            rw [hpath]
            rintro _ ⟨⟩
            exact htagFree
          exact ⟨v, k, Value.loads_of_dumps hstored hdumps, find?_of_resolveKey hpath hgenerates hresolve,
            Value.isValidKey_of_encodeKey hencode, hencode⟩
        · exact h r (hsame.records ▸ hr)

/-- A collection is under the keys that are in its records if it has a key path without tags, and has
no records if it is not in the catalog. -/
structure IsInline (c : Collection) : Prop where
  keys : ∀ h ∈ c.header, ∀ path ∈ h.keying.keyPath, path.IsTagFree → c.KeysInline path
  absent : c.header = none → c.records = []

theorem isInline_empty : empty.IsInline := ⟨nofun, fun _ => rfl⟩

/-- Fewer records under the same keying. -/
theorem IsInline.of_subset (h : c.IsInline)
    (hkeying : d.header.map Header.keying = c.header.map Header.keying)
    (hsub : ∀ r ∈ d.records, r ∈ c.records) : d.IsInline where
  keys header hheader path hpath htagFree := by
    rw [Option.mem_def.1 hheader] at hkeying
    obtain ⟨other, hother, heq⟩ := Option.map_eq_some_iff.1 hkeying.symm
    exact (h.keys other hother path (heq ▸ hpath) htagFree).of_subset hsub
  absent hnone := by
    rw [hnone] at hkeying
    have hrecords := h.absent (Option.map_eq_none_iff.1 hkeying.symm)
    exact List.eq_nil_iff_forall_not_mem.2 fun r hr => List.not_mem_nil (hrecords ▸ hsub r hr)

/-- A change that suits its collection keeps the keys inside the records. -/
theorem isInline_apply (h : c.IsInline) (hregular : c.IsRegular) {made : Keying → Prop} {change : Change}
    (hsuits : change.Suits made c) (name : String) : (change.apply name c).IsInline := by
  cases change with
  | create keying =>
      refine ⟨fun _ _ path _ _ r hr => ?_, fun hnone => ?_⟩
      · rw [Change.apply, h.absent hsuits.2] at hr
        cases hr
      · cases hnone
  | drop => exact isInline_empty
  | createIndex index spec =>
      refine h.of_subset (congrArg _ (header_createIndex (Prod.mk.eta).symm)) fun r hr => ?_
      rwa [Change.apply, records_createIndex] at hr
  | deleteIndex index => exact h.of_subset rfl fun _ hr => hr
  | write keying value key overwrite =>
      have hkeying := StoreRef.keying_apply name hsuits (by simp) hsuits
      obtain ⟨header, hheader, rfl⟩ := Option.map_eq_some_iff.1 hsuits
      refine ⟨fun other hother path hpath htagFree => ?_, fun hnone => ?_⟩
      · rw [Option.mem_def.1 hother] at hkeying
        rw [Option.some.inj hkeying] at hpath
        exact keysInline_write (h.keys header hheader path hpath htagFree) hpath htagFree
          (hregular.keying header hheader) name value key overwrite
      · rw [hnone] at hkeying
        cases hkeying
  | delete range => exact h.of_subset rfl fun _ hr => List.mem_of_mem_filter hr
  | clear => exact h.of_subset rfl (List.nil_subset _)

end Collection
end RecordStore
