import RecordStore.Proofs.Collection.Changes
import RecordStore.Proofs.Collection.Map
import RecordStore.Proofs.Contents

/-!
Histories of contents. A history is the changes that led to some contents; the map of a collection
is read off it without looking at a record, and as long as whoever writes knows the keying of the
collection, it is the map that the collection holds.
-/

namespace RecordStore

/-- Changes of contents, the latest first. -/
abbrev History := List (String × Change)

/-- What a change needs of its collection: one that is created was not there, and whoever writes
knows the keying. The keyings that collections are made with may be restricted. -/
def Change.Suits (made : Keying → Prop) (c : Collection) : Change → Prop
  | create keying => made keying ∧ c.header = none
  | write keying _ _ _ => c.header.map Header.keying = some keying
  | _ => True

/-- A map after a change of the collection that holds it. A write counts only if it succeeds, and
then for the key that it yields. -/
def RecordMap.after (m : RecordMap) (name : String) (c : Collection) : Change → RecordMap
  | .create _ | .drop | .clear => fun _ => none
  | .createIndex _ _ | .deleteIndex _ => m
  | .write keying value key overwrite =>
    match (c.write name keying value key overwrite).1 with
    | .ok k => m.put keying.keyPath value k
    | .error _ => m
  | .delete range => m.erase range

namespace History

/-- The contents that a history leads to. -/
def contents : History → Contents
  | [] => .empty
  | change :: earlier => (contents earlier).changed (some change)

/-- Each change suits the collection that it was made to. -/
def IsSuitable (made : Keying → Prop) : History → Prop
  | [] => True
  | (name, change) :: earlier =>
    change.Suits made ((contents earlier).get name) ∧ IsSuitable made earlier

/-- The map that the changes of one collection build. -/
def map (name : String) : History → RecordMap
  | [] => fun _ => none
  | (changed, change) :: earlier =>
    if changed = name then (map name earlier).after name ((contents earlier).get name) change
    else map name earlier

end History

namespace Collection

variable {c d : Collection} {m : RecordMap}

/-- Where a collection has its keys does not change when it is written. -/
theorem keying_write {name : String} {keying : Keying} {value key : Value} {overwrite : Bool}
    {r : Except Failure Value} (h : c.write name keying value key overwrite = (r, d)) :
    d.header.map Header.keying = c.header.map Header.keying := by
  rcases write_cases h with ⟨_, _, hsame⟩ | ⟨_, _, _, _, _, _, _, hsame, _, _, rfl⟩
  · exact hsame.keying
  · exact hsame.keying

theorem header_isSome_write {name : String} {keying : Keying} {value key : Value} {overwrite : Bool}
    {r : Except Failure Value} (h : c.write name keying value key overwrite = (r, d)) :
    d.header.isSome = c.header.isSome := by
  rw [← Option.isSome_map (f := Header.keying), keying_write h, Option.isSome_map]

/-- A collection holds a map. One that is not in the catalog has no records, so that nothing is left
for a later one of its name. -/
structure Represents (c : Collection) (m : RecordMap) : Prop where
  sound : c.IsSound fun _ => True
  absent : c.header = none → c.records = []
  view : c.view = m

theorem represents_empty : empty.Represents fun _ => none := ⟨isSound_empty, fun _ => rfl, rfl⟩

theorem represents_create (h : c.Represents m) {keying : Keying} (hk : keying.IsTagFree)
    (hnew : c.header = none) :
    { c with header := some ⟨keying, 0⟩ : Collection }.Represents fun _ => none where
  sound := ⟨h.sound.consistent.congr rfl rfl, by rintro _ ⟨⟩; exact hk⟩
  absent := nofun
  view := by
    funext key
    rw [view, text?]
    simp only [h.absent hnew]
    rfl

theorem records_createIndex (c : Collection) (name index : String) (spec : IndexSpec) :
    (c.createIndex name index spec).2.records = c.records := by
  cases hr : c.createIndex name index spec with
  | mk r d =>
      rcases createIndex_cases hr with ⟨_, _, rfl⟩ | ⟨_, _, _, rfl, _⟩
      · rfl
      · rfl

theorem represents_createIndex (h : c.Represents m) (name index : String) (spec : IndexSpec) :
    (c.createIndex name index spec).2.Represents m := by
  have hrecords := records_createIndex c name index spec
  refine ⟨?_, fun hnone => ?_, (view_congr hrecords).trans h.view⟩
  · cases hr : c.createIndex name index spec with
    | mk r d =>
        cases r with
        | ok u => exact (isSound_createIndex h.sound hr).mono fun _ _ => trivial
        | error f => exact (isSound_createIndex_of_error h.sound hr).mono fun _ _ => trivial
  · rw [header_createIndex (Prod.mk.eta).symm] at hnone
    rw [hrecords]
    exact h.absent hnone

theorem represents_write (h : c.Represents m) {keying : Keying}
    (hkeying : c.header.map Header.keying = some keying) (name : String) (value key : Value)
    (overwrite : Bool) : (c.write name keying value key overwrite).2.Represents
      (m.after name c (.write keying value key overwrite)) := by
  obtain ⟨header, hheader, rfl⟩ := Option.map_eq_some_iff.1 hkeying
  have htagFree := h.sound.tagFree header hheader
  cases hw : c.write name header.keying value key overwrite with
  | mk r d =>
      refine ⟨isSound_write h.sound htagFree hw, fun hnone => ?_, ?_⟩
      · have hsome := header_isSome_write hw
        rw [hnone, hheader] at hsome
        cases hsome
      · rw [RecordMap.after, hw, ← h.view]
        cases r with
        | ok k => exact view_write htagFree hw
        | error f => exact view_write_of_error hw

theorem represents_delete (h : c.Represents m) (range : Option (KeyRange Value)) :
    (c.delete (KeyRange.conditionsOf range)).Represents (m.erase range) where
  sound := isSound_delete h.sound _
  absent hnone := by
    rw [delete, h.absent hnone]
    rfl
  view := by rw [view_delete, h.view]

/-- What a change makes of a collection is what it makes of the map. -/
theorem represents_apply (h : c.Represents m) {change : Change}
    (hsuits : change.Suits Keying.IsTagFree c) (name : String) :
    (change.apply name c).Represents (m.after name c change) := by
  cases change with
  | create keying => exact represents_create h hsuits.1 hsuits.2
  | drop => exact represents_empty
  | createIndex index spec => exact represents_createIndex h name index spec
  | deleteIndex index => exact ⟨isSound_deleteIndex h.sound index, h.absent, h.view⟩
  | write keying value key overwrite => exact represents_write h hsuits name value key overwrite
  | delete range => exact represents_delete h range
  | clear => exact ⟨isSound_clear h.sound, fun _ => rfl, rfl⟩

end Collection

/-- The map of a collection is the one that its history builds. -/
theorem History.represents_map {h : History} (hs : h.IsSuitable Keying.IsTagFree) (name : String) :
    (h.contents.get name).Represents (h.map name) := by
  induction h with
  | nil => exact Collection.represents_empty
  | cons latest earlier ih =>
      obtain ⟨changed, change⟩ := latest
      rw [map]
      by_cases hname : changed = name
      · subst hname
        rw [if_pos rfl]
        change (((contents earlier).set changed _).get changed).Represents _
        rw [Contents.get_set_self]
        exact Collection.represents_apply (ih hs.2) hs.1 changed
      · rw [if_neg hname]
        change (((contents earlier).set changed _).get name).Represents _
        rw [Contents.get_set_of_ne (Ne.symm hname)]
        exact ih hs.2

end RecordStore
