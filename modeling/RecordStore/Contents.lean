import RecordStore.Collection.Write

/-!
The contents of a store: its collections by name, and the catalog of those that exist. Data may be
under a name that is not in the catalog.
-/

namespace RecordStore

/-- Collections in the order of their names. -/
structure Contents where
  collections : List (String × Collection)

namespace Contents

def empty : Contents := ⟨[]⟩

instance : Inhabited Contents := ⟨empty⟩

/-- What is under a name; nothing under a name that was never used. -/
def get (s : Contents) (name : String) : Collection := (s.collections.lookup name).getD .empty

def set (s : Contents) (name : String) (c : Collection) : Contents :=
  ⟨OrderedRows.insert (fun a b => decide (a < b)) name c s.collections⟩

/-- The names in the catalog, in order. -/
def names (s : Contents) : List String :=
  (s.collections.filter fun row => row.2.header.isSome).map Prod.fst

def contains (s : Contents) (name : String) : Bool := (s.get name).header.isSome

/-- Puts a collection into the catalog. Data that is left under its name becomes its data. -/
def create (s : Contents) (name : String) (keying : Keying) : Contents :=
  s.set name { s.get name with header := some ⟨keying, 0⟩ }

/-- Takes a collection out of the catalog, with all data under its name. -/
def delete (s : Contents) (name : String) : Contents := s.set name .empty

end Contents

/-- A store as it is kept: the version of its schema and its contents. Version 0 is a store that
was never upgraded. -/
structure Store where
  version : Nat
  contents : Contents

instance : Inhabited Store := ⟨⟨0, .empty⟩⟩

end RecordStore
