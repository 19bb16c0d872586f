import RecordStore.Contents
import RecordStore.Proofs.Collection.Creation

/-!
Sound contents: each collection is consistent up to the indexes that are flawed in it, and has a key
path without tags.
-/

namespace RecordStore

/-- No key is written into a record where it would make a tagged object. -/
def Keying.IsTagFree (k : Keying) : Prop := ∀ path ∈ k.keyPath, path.IsTagFree

namespace Collection

structure IsSound (c : Collection) (flawed : String → Prop) : Prop where
  consistent : c.IsConsistent flawed
  tagFree : ∀ h ∈ c.header, h.keying.IsTagFree

variable {c d : Collection} {flawed others : String → Prop}

theorem isSound_empty : empty.IsSound flawed := ⟨isConsistent_empty, nofun⟩

theorem IsSound.mono (h : c.IsSound flawed) (hsub : ∀ name, flawed name → others name) :
    c.IsSound others :=
  ⟨h.consistent.mono hsub, h.tagFree⟩

theorem SameData.tagFree (hsame : SameData c d) (h : ∀ h ∈ c.header, h.keying.IsTagFree) :
    ∀ h ∈ d.header, h.keying.IsTagFree := by
  intro header hd
  have hmap : c.header.map Header.keying = some header.keying := by
    rw [← hsame.keying, Option.mem_def.1 hd]
    rfl
  obtain ⟨old, hold, hkeying⟩ := Option.map_eq_some_iff.1 hmap
  rw [← hkeying]
  exact h old hold

theorem isSound_write {name : String} {keying : Keying} {value key : Value} {overwrite : Bool}
    {r : Except Failure Value} (hc : c.IsSound flawed) (hk : keying.IsTagFree)
    (h : c.write name keying value key overwrite = (r, d)) : d.IsSound flawed := by
  refine ⟨isConsistent_write hc.consistent hk h, ?_⟩
  rcases write_cases h with ⟨_, _, hsame⟩ | ⟨_, _, _, _, _, _, _, hsame, _, _, rfl⟩
  · exact hsame.tagFree hc.tagFree
  · exact hsame.tagFree hc.tagFree

theorem isSound_delete (h : c.IsSound flawed) (conditions : List Condition) :
    (c.delete conditions).IsSound flawed :=
  ⟨isConsistent_delete h.consistent conditions, h.tagFree⟩

theorem isSound_clear (h : c.IsSound flawed) : c.clear.IsSound flawed :=
  ⟨isConsistent_clear h.consistent, h.tagFree⟩

theorem isSound_deleteIndex (h : c.IsSound flawed) (name : String) :
    (c.deleteIndex name).IsSound flawed :=
  ⟨isConsistent_deleteIndex h.consistent name, h.tagFree⟩

theorem header_createIndex {collection name : String} {spec : IndexSpec} {r : Except Failure Unit}
    (h : c.createIndex collection name spec = (r, d)) : d.header = c.header := by
  rcases createIndex_cases h with ⟨_, _, rfl⟩ | ⟨_, _, _, rfl, _⟩
  · rfl
  · rfl

theorem isSound_createIndex {collection name : String} {spec : IndexSpec} (hc : c.IsSound flawed)
    (h : c.createIndex collection name spec = (.ok (), d)) :
    d.IsSound fun n => flawed n ∧ n ≠ name := by
  refine ⟨isConsistent_createIndex hc.consistent h, ?_⟩
  rw [header_createIndex h]
  exact hc.tagFree

theorem isSound_createIndex_of_error {collection name : String} {spec : IndexSpec} {f : Failure}
    (hc : c.IsSound flawed) (h : c.createIndex collection name spec = (.error f, d)) :
    d.IsSound fun n => flawed n ∨ n = name ∧ c.index? name = none := by
  refine ⟨isConsistent_createIndex_of_error hc.consistent h, ?_⟩
  rw [header_createIndex h]
  exact hc.tagFree

end Collection

namespace Contents

variable {s : Contents} {flawed others : String → String → Prop} {name : String} {c : Collection}

theorem get_set_self (s : Contents) (name : String) (c : Collection) : (s.set name c).get name = c := by
  rw [get, set, OrderedRows.lookup_insert_self isOrder_name]
  rfl

theorem get_set_of_ne {other : String} (h : other ≠ name) (s : Contents) (c : Collection) :
    (s.set name c).get other = s.get other := by
  rw [get, set, OrderedRows.lookup_insert_of_ne isOrder_name h]
  rfl

/-- Each collection is sound, up to indexes that are flawed in the collection of a name. -/
def IsSound (s : Contents) (flawed : String → String → Prop) : Prop :=
  ∀ name, (s.get name).IsSound (flawed name)

theorem isSound_empty : empty.IsSound flawed := fun _ => Collection.isSound_empty

theorem IsSound.mono (h : s.IsSound flawed) (hsub : ∀ name index, flawed name index →
    others name index) : s.IsSound others :=
  fun name => (h name).mono (hsub name)

theorem isSound_set (h : s.IsSound flawed) (hc : c.IsSound (others name))
    (hsub : ∀ other, other ≠ name → ∀ index, flawed other index → others other index) :
    (s.set name c).IsSound others := by
  intro other
  by_cases hname : other = name
  · subst hname
    rw [get_set_self]
    exact hc
  · rw [get_set_of_ne hname]
    exact (h other).mono (hsub other hname)

theorem isSound_create (h : s.IsSound flawed) {keying : Keying} (hk : keying.IsTagFree) :
    (s.create name keying).IsSound flawed := by
  refine isSound_set h ⟨(h name).consistent.congr rfl rfl, ?_⟩ fun _ _ _ => id
  rintro _ ⟨⟩
  exact hk

theorem isSound_delete (h : s.IsSound flawed) : (s.delete name).IsSound flawed :=
  isSound_set h Collection.isSound_empty fun _ _ _ => id

end Contents
end RecordStore
