import RecordStore.Collection.Cursor
import RecordStore.Engine.Connection

/-!
Collections, indexes and cursors as they are reached through a transaction. Each is known by what
it was when it was obtained: the key path of a collection and the definition of an index do not
change with the catalog later on.
-/

namespace RecordStore

/-- A collection as a transaction obtained it. -/
structure StoreRef where
  transaction : Nat
  name : String
  keying : Keying
  deriving DecidableEq

/-- An index as it was obtained from a collection. -/
structure IndexRef where
  store : StoreRef
  name : String
  spec : IndexSpec

/-- A cursor with the collection that it reads. -/
structure CursorRef where
  store : StoreRef
  cursor : Cursor

namespace Action

/-- The collections in the catalog. -/
def collectionNames (tx : Nat) : Action (List String) := return (← read tx).contents.names

/-- Obtains a collection in the scope of a transaction; everything in the catalog is in the scope
of an upgrade. -/
def openCollection (tx : Nat) (name : Value) : Action StoreRef := do
  let t ← transaction tx
  let scope ← if t.mode = .versionchange then collectionNames tx else pure t.scope
  modify (·.setTransaction tx { t with scope := scope })
  let _ ← ensureActive tx
  match name.unhashable? with
  | some k => throw (.format (.unhashable k))
  | none => pure ()
  if !scope.any (fun s => name.equals (.text s)) then refuse (.outOfScope name.display)
  let s ← read tx
  match (s.contents.get name.display).header with
  | none => refuse (.noCollection name.display)
  | some h => return ⟨tx, name.display, h.keying⟩

/-- Creates a collection during an upgrade. -/
def createCollection (tx : Nat) (name keyPath autoIncrement : Value) : Action StoreRef := do
  let name ← match name with
    | .text s => pure s
    | _ => refuse .collectionName
  let path ← ofExcept (Key.storeResult (KeyPath.ofValue keyPath))
  let auto := autoIncrement.isTrue
  if auto && (path = some (.single "") || path.any KeyPath.isCompound) then refuse .generatorPath
  let s ← read tx
  if s.contents.contains name then refuse (.collectionExists name)
  write tx fun s => { s with contents := s.contents.create name ⟨path, auto⟩ }
  openCollection tx (.text name)

/-- Deletes a collection with all its data during an upgrade. -/
def deleteCollection (tx : Nat) (name : Value) : Action Unit := do
  let s ← read tx
  if !s.contents.contains name.display then refuse (.noCollection name.display)
  write tx fun s => { s with contents := s.contents.delete name.display }

end Action

namespace StoreRef

open RecordStore.Action (ensureWritable refuse)

/-- Reads the data under a collection's name. -/
def collection (r : StoreRef) : Action Collection :=
  return (← Action.read r.transaction).contents.get r.name

/-- Changes the data under a collection's name. -/
def change {α : Type} (r : StoreRef) (f : Collection → Except Failure α × Collection) :
    Action α := do
  let (result, c) := f (← r.collection)
  Action.write r.transaction fun s => { s with contents := s.contents.set r.name c }
  ofExcept result

def indexNames (r : StoreRef) : Action (List String) :=
  return (← r.collection).indexes.map Index.name

def openIndex (r : StoreRef) (name : Value) : Action IndexRef := do
  match (← r.collection).index? name.display with
  | none => refuse (.noIndex name.display r.name)
  | some i => return ⟨r, i.name, i.spec⟩

/-- Creates an index during an upgrade, filled from the records. -/
def createIndex (r : StoreRef) (name keyPath unique multiEntry : Value) : Action IndexRef := do
  let t ← Action.transaction r.transaction
  if t.mode ≠ .versionchange then refuse .createIndexOutsideUpgrade
  let path ← ofExcept (Key.storeResult (KeyPath.ofValue keyPath))
  if multiEntry.isTrue && path.any KeyPath.isCompound then refuse .multiEntryPath
  let spec : IndexSpec := ⟨path, unique.isTrue, multiEntry.isTrue⟩
  r.change fun c => c.createIndex r.name name.display spec
  return ⟨r, name.display, spec⟩

def deleteIndex (r : StoreRef) (name : Value) : Action Unit := do
  let t ← Action.transaction r.transaction
  if t.mode ≠ .versionchange then refuse .deleteIndexOutsideUpgrade
  let i ← r.openIndex name
  r.change fun c => (.ok (), c.deleteIndex i.name)

/-- Writes a record; one that is there is overwritten only on demand. -/
def write (r : StoreRef) (value key : Value) (overwrite : Bool) : Action Value := do
  let _ ← ensureWritable r.transaction
  r.change fun c => c.write r.name r.keying value key overwrite

def add (r : StoreRef) (value key : Value) : Action Value := r.write value key false

def put (r : StoreRef) (value key : Value) : Action Value := r.write value key true

/-- The conditions that a query puts on keys. -/
def conditions (query : Value) : Action (List Condition) := do
  let range ← ofExcept (KeyRange.ofQuery query)
  return KeyRange.conditionsOf range

/-- The first record in a range of keys, and null if there is none. -/
def get (r : StoreRef) (query : Value) : Action Value := do
  if query.isNull then refuse .getWithoutQuery
  let cs ← conditions query
  ofExcept ((← r.collection).get none cs)

def delete (r : StoreRef) (query : Value) : Action Unit := do
  let _ ← ensureWritable r.transaction
  if query.isNull then refuse .deleteWithoutQuery
  let cs ← conditions query
  r.change fun c => (.ok (), c.delete cs)

def clear (r : StoreRef) : Action Unit := do
  let _ ← ensureWritable r.transaction
  r.change fun c => (.ok (), c.clear)

/-- The number of rows of a collection or index in a range of keys. -/
def count (r : StoreRef) (source : Option String) (query : Value) : Action Nat := do
  let cs ← conditions query
  return (← r.collection).count source cs

end StoreRef

namespace IndexRef

/-- The record that the first entry of an index in a range leads to. -/
def get (i : IndexRef) (query : Value) : Action Value := do
  let cs ← StoreRef.conditions query
  ofExcept ((← i.store.collection).get (some i.name) cs)

/-- The key of the record that the first entry in a range leads to. -/
def getKey (i : IndexRef) (query : Value) : Action Value := do
  let cs ← StoreRef.conditions query
  ofExcept ((← i.store.collection).getKey (some i.name) cs)

end IndexRef

namespace CursorRef

open RecordStore.Action (refuse reject)

/-- The most rows that a cursor can pass over in one step. -/
def maxOffset : Nat := 2 ^ 63 - 1

/-- Moves a cursor; the cursor is changed also when what it stands on cannot be shown. -/
def step (r : CursorRef) (count : Nat) : Action (Except Failure Unit × CursorRef) := do
  let c ← r.store.collection
  if maxOffset < count - 1 then throw (.format .countBeyondStorage)
  let (result, cursor) := r.cursor.step c count
  return (result, { r with cursor := cursor })

/-- A cursor on the first row of a range. -/
def start (r : StoreRef) (source : Option String) (query direction : Value) (keyOnly : Bool) :
    Action CursorRef := do
  let cs ← StoreRef.conditions query
  match Direction.ofValue? direction with
  | none => reject (.direction direction)
  | some d => do
    let (result, cursor) ← step ⟨r, .start source cs d keyOnly⟩ 1
    ofExcept result
    return cursor

def ensurePositioned (r : CursorRef) : Action Unit :=
  if r.cursor.isDone then refuse .cursorExhausted else pure ()

/-- The number of rows that an argument asks a cursor to advance by. -/
def advanceCount : Value → Action Nat
  | .int n => if 0 < n then pure n.toNat else reject .advanceCount
  | _ => reject .advanceCount

/-- Writes a record back under a cursor. -/
def update (r : CursorRef) (value : Value) : Action Value := do
  if r.cursor.keyOnly then refuse .keyCursorUpdate
  r.ensurePositioned
  match r.store.keying.keyPath with
  | some path => do
    ofExcept (Cursor.checkKept path r.cursor.primaryKey value)
    r.store.put value .null
  | none => r.store.put value r.cursor.primaryKey

/-- Deletes the record under a cursor. -/
def delete (r : CursorRef) : Action Unit := do
  if r.cursor.keyOnly then refuse .keyCursorDelete
  r.ensurePositioned
  r.store.delete r.cursor.primaryKey

end CursorRef
end RecordStore
