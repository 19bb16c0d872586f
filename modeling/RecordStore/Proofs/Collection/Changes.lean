import RecordStore.Contents

/-!
Changes of collections. Whatever is done to the contents of a store is a change of what is under one
name; a change that fails half way still has its effect, which is part of it.
-/

namespace RecordStore

/-- A change of what is under the name of a collection. -/
inductive Change where
  | create (keying : Keying)
  | drop
  | createIndex (name : String) (spec : IndexSpec)
  | deleteIndex (name : String)
  | write (keying : Keying) (value key : Value) (overwrite : Bool)
  | delete (range : Option (KeyRange Value))
  | clear

/-- What a change makes of the collection with a name. -/
def Change.apply (name : String) (c : Collection) : Change → Collection
  | create keying => { c with header := some ⟨keying, 0⟩ }
  | drop => .empty
  | createIndex index spec => (c.createIndex name index spec).2
  | deleteIndex index => c.deleteIndex index
  | write keying value key overwrite => (c.write name keying value key overwrite).2
  | delete range => c.delete (KeyRange.conditionsOf range)
  | clear => c.clear

/-- Contents after a change of the collection with a name, if there is one. -/
def Contents.changed (s : Contents) : Option (String × Change) → Contents
  | none => s
  | some (name, change) => s.set name (change.apply name (s.get name))

end RecordStore
