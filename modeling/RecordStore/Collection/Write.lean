import RecordStore.Collection.Basic

/-!
Writing to a collection. A write first finds the key of the record, which may move the generator
of keys; then it plans all that it will do, and every further check belongs to the plan; a plan is
carried out as a whole. So a write that fails leaves records and entries as they were.
-/

namespace RecordStore
namespace Collection

/-- The greatest key that is generated. -/
def maxGenerated : Nat := 2 ^ 53

/-- Generates the next key. -/
def generate (c : Collection) : Except Failure Nat × Collection :=
  match c.header with
  | none => (.error (.argument .generatorGone), c)
  | some h =>
    if maxGenerated < h.lastKey + 1 then (.error (.store .generatorExhausted), c)
    else (.ok (h.lastKey + 1), { c with header := some { h with lastKey := h.lastKey + 1 } })

/-- The whole number that a generator must not stay below once a key is used. -/
def generatorFloor : Value → Except FormatFault (Option Int)
  | .int n => .ok (some (min n maxGenerated))
  | .float x =>
    if x.isInfinite then
      if x.isNegative then .error .infiniteCount else .ok (some maxGenerated)
    else .ok (some (min x.truncate maxGenerated))
  | _ => .ok none

/-- Moves the generator up to a key that a caller gives. -/
def raiseGenerator (c : Collection) (keying : Keying) (key : Value) :
    Except FormatFault Unit × Collection :=
  if !keying.autoIncrement then (.ok (), c)
  else match generatorFloor key with
    | .error f => (.error f, c)
    | .ok none => (.ok (), c)
    | .ok (some n) =>
      if n < -(2 ^ 63) then (.error .countBeyondStorage, c)
      else
        let raised (h : Header) : Header := { h with lastKey := max h.lastKey n.toNat }
        (.ok (), { c with header := c.header.map raised })

/-- Uses a key that a caller gives or a record holds. -/
def useKey (c : Collection) (keying : Keying) (key record : Value) :
    Except Failure (Value × Value) × Collection :=
  match c.raiseGenerator keying key with
  | (.error f, c) => (.error (.format f), c)
  | (.ok (), c) => (.ok (key, record), c)

/-- Generates a key for a record, and writes it into the record if there is a key path. -/
def useGenerated (c : Collection) (path : Option KeyPath) (record : Value) :
    Except Failure (Value × Value) × Collection :=
  match c.generate with
  | (.error f, c) => (.error f, c)
  | (.ok n, c) =>
    match path with
    | some (.single p) =>
      match KeyPath.inject p (.int n) record with
      | .error f => (.error (.store f), c)
      | .ok record => (.ok (.int n, record), c)
    | _ => (.ok (.int n, record), c)

/-- Finds the key of a record: with a key path it is in the record or generated, and else it is
given or generated. -/
def resolveKey (c : Collection) (name : String) (keying : Keying) (record key : Value) :
    Except Failure (Value × Value) × Collection :=
  match keying.keyPath with
  | some path =>
    if !key.isNull then (.error (.store (.keyGiven name)), c)
    else match path.find? record with
      | none =>
        if keying.autoIncrement then c.useGenerated (some path) record
        else (.error (.store (.noKeyAt path)), c)
      | some found =>
        if found.isValidKey then c.useKey keying found record
        else (.error (.store (.invalidKeyAt path)), c)
  | none =>
    if key.isNull then
      if keying.autoIncrement then c.useGenerated none record
      else (.error (.store (.keyRequired name)), c)
    else if key.isValidKey then c.useKey keying key record
    else (.error (.store (.notKey key)), c)

/-- All that a write will do: the key and text of the record, whether it replaces one, and the
entries it adds, by the names of their indexes. -/
structure Plan where
  key : Bytes
  text : String
  replaces : Bool
  entries : List (String × Bytes)

/-- The entries of a record in some indexes. -/
def planEntries (key : Bytes) (record : Value) : List Index → Except Failure (List (String × Bytes))
  | [] => .ok []
  | i :: rest => do
    let keys ← i.spec.keysFor record
    i.checkAllUnique key keys
    let others ← planEntries key record rest
    .ok ((keys.map fun k => (i.name, k)) ++ others)

/-- Plans to write a record under its key. -/
def plan (c : Collection) (name : String) (key record : Value) (overwrite : Bool) :
    Except Failure Plan := do
  let encoded ← key.encodeKey
  let replaces := (c.text? encoded).isSome
  if replaces && !overwrite then .error (.store (.duplicateKey key name))
  let entries ← planEntries encoded record c.indexes
  let text ← Key.storeResult record.dumps
  .ok ⟨encoded, text, replaces, entries⟩

/-- An index after a plan is carried out. -/
def Plan.updateIndex (p : Plan) (i : Index) : Index :=
  let i := if p.replaces then i.dropWhere (· == p.key) else i
  (p.entries.filter (·.1 == i.name)).foldl (fun i e => i.insert (e.2, p.key)) i

/-- Carries out a plan. -/
def carryOut (c : Collection) (p : Plan) : Collection :=
  { c with
    indexes := c.indexes.map p.updateIndex
    records := OrderedRows.insert Bytes.lt p.key p.text c.records }

/-- Writes a record under its key, and yields the key. The name and the keying are those that the
writer knows the collection by. -/
def write (c : Collection) (name : String) (keying : Keying) (value key : Value)
    (overwrite : Bool) : Except Failure Value × Collection :=
  match value.clone with
  | .error f => (.error f, c)
  | .ok record =>
    match c.resolveKey name keying record key with
    | (.error f, c) => (.error f, c)
    | (.ok (key, record), c) =>
      match c.plan name key record overwrite with
      | .error f => (.error f, c)
      | .ok p => (.ok key, c.carryOut p)

/-- Deletes the records whose keys meet some conditions, with their entries. -/
def delete (c : Collection) (conditions : List Condition) : Collection :=
  let doomed (key : Bytes) : Bool := Condition.allHold conditions key && (c.text? key).isSome
  { c with
    indexes := c.indexes.map (·.dropWhere doomed)
    records := c.records.filter fun r => !Condition.allHold conditions r.1 }

/-- Deletes all records and entries. -/
def clear (c : Collection) : Collection :=
  { c with indexes := c.indexes.map fun i => { i with entries := [] }, records := [] }

/-- Puts index keys of one record into an index, up to the first that is refused. -/
def fillKeys (record : Bytes) : List Bytes → Index → Except Failure Unit × Index
  | [], i => (.ok (), i)
  | key :: rest, i =>
    match i.checkUnique key record with
    | .error f => (.error f, i)
    | .ok () => fillKeys record rest (i.insert (key, record))

/-- Puts the entries of records into an index, up to the first that is refused. -/
def fill : List (Bytes × String) → Index → Except Failure Unit × Index
  | [], i => (.ok (), i)
  | (record, text) :: rest, i =>
    match (Key.formatResult (Value.loads text)).bind i.spec.keysFor with
    | .error f => (.error f, i)
    | .ok keys =>
      match fillKeys record keys i with
      | (.error f, i) => (.error f, i)
      | (.ok (), i) => fill rest i

/-- Puts an index among others in the order of names. -/
def insertIndex (i : Index) : List Index → List Index
  | [] => [i]
  | j :: rest => if i.name < j.name then i :: j :: rest else j :: insertIndex i rest

/-- Makes an index and fills it from the records. An index that could not be filled stays, with
the entries it got. -/
def createIndex (c : Collection) (collection name : String) (spec : IndexSpec) :
    Except Failure Unit × Collection :=
  if (c.index? name).isSome then (.error (.store (.indexExists name collection)), c)
  else
    let (result, i) := fill c.records ⟨name, spec, []⟩
    (result, { c with indexes := insertIndex i c.indexes })

/-- Deletes an index with its entries. -/
def deleteIndex (c : Collection) (name : String) : Collection :=
  { c with indexes := c.indexes.filter (·.name != name) }

end Collection
end RecordStore
