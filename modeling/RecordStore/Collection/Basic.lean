import RecordStore.Document.Reader
import RecordStore.KeyPath.Resolution
import RecordStore.KeyRange
import RecordStore.OrderedRows

/-!
Collections. A collection holds the text of its records under their encoded keys, and for each of
its indexes the entries that lead from an index key to the key of a record. What is in the catalog
about a collection is its header; data may be left under a name that the catalog no longer has.
-/

namespace RecordStore

/-- How the records of a collection get their keys. -/
structure Keying where
  keyPath : Option KeyPath
  autoIncrement : Bool
  deriving DecidableEq

/-- What the catalog says about a collection: how keys are found, and the last one generated. -/
structure Header where
  keying : Keying
  lastKey : Nat

/-- How an index gets its keys. An index without a key path can be made, but it takes no record. -/
structure IndexSpec where
  keyPath : Option KeyPath
  unique : Bool
  multiEntry : Bool

/-- An index entry: the index key, and the key of the record. -/
abbrev Entry := Bytes × Bytes

/-- The order of index entries: by index key, then by the key of the record. -/
def Entry.lt (a b : Entry) : Bool := Bytes.lt a.1 b.1 || (a.1 == b.1 && Bytes.lt a.2 b.2)

structure Index where
  name : String
  spec : IndexSpec
  entries : List Entry

structure Collection where
  header : Option Header
  indexes : List Index
  records : List (Bytes × String)

namespace IndexSpec

/-- The keys of the items that can be keys, in ascending order and each once. -/
def itemKeys : List Value → Except Failure (List Bytes)
  | [] => .ok []
  | v :: rest =>
    if v.isValidKey then do
      let key ← v.encodeKey
      let keys ← itemKeys rest
      .ok (OrderedRows.insertOnce Bytes.lt key keys)
    else itemKeys rest

/-- The index keys of a record: what is found at the key path, if it can be a key, or each item of
a list when there may be several. -/
def keysFor (spec : IndexSpec) (record : Value) : Except Failure (List Bytes) :=
  match spec.keyPath with
  | none => .error (.format (.notIterable .null))
  | some path =>
    match path.find? record, spec.multiEntry with
    | none, _ => .ok []
    | some (.list items), true => itemKeys items
    | some (.tuple items), true => itemKeys items
    | some found, _ => if found.isValidKey then (found.encodeKey).map ([·]) else .ok []

end IndexSpec

namespace Index

def insert (i : Index) (entry : Entry) : Index :=
  { i with entries := OrderedRows.insertOnce Entry.lt entry i.entries }

/-- Drops the entries that lead to the keys that a test holds of. -/
def dropWhere (i : Index) (test : Bytes → Bool) : Index :=
  { i with entries := i.entries.filter fun e => !test e.2 }

/-- Refuses an index key that a unique index has for another record. -/
def checkUnique (i : Index) (key record : Bytes) : Except Failure Unit :=
  if i.spec.unique && i.entries.any fun e => e.1 == key && e.2 != record then do
    let shown ← Key.decode key
    .error (.store (.duplicateIndexKey i.name shown))
  else .ok ()

/-- Refuses the first of some index keys that a unique index has for another record. -/
def checkAllUnique (i : Index) (record : Bytes) : List Bytes → Except Failure Unit
  | [] => .ok ()
  | key :: rest => do
    i.checkUnique key record
    i.checkAllUnique record rest

end Index

namespace Collection

def empty : Collection := ⟨none, [], []⟩

instance : Inhabited Collection := ⟨empty⟩

def index? (c : Collection) (name : String) : Option Index := c.indexes.find? (·.name == name)

/-- The text of the record under an encoded key. -/
def text? (c : Collection) (key : Bytes) : Option String := c.records.lookup key

/-- The record under an encoded key, and null if there is none. -/
def load (c : Collection) (key : Bytes) : Except Failure Value :=
  match c.text? key with
  | none => .ok .null
  | some s => Key.formatResult (Value.loads s)

/-- Replaces an index by one of the same name. -/
def setIndex (c : Collection) (i : Index) : Collection :=
  { c with indexes := c.indexes.map fun j => if j.name = i.name then i else j }

/-- The rows of encoded keys that a scan goes over: an index has its own, and for a collection
itself both keys of a row are the record's. -/
def rows (c : Collection) : Option String → List Entry
  | none => c.records.map fun r => (r.1, r.1)
  | some name => ((c.index? name).map Index.entries).getD []

end Collection
end RecordStore
