import RecordStore.Collection.Scan

/-!
Cursors. A cursor stands on one row of a scan and shows its keys and, unless it is for keys only,
the record. It remembers the row by its encoded keys, and each step looks for the rows beyond it
anew, so that writes between the steps are seen.
-/

namespace RecordStore

structure Cursor where
  /-- The index that is scanned; none for the collection itself. -/
  source : Option String
  conditions : List Condition
  direction : Direction
  keyOnly : Bool
  position : Option Entry
  isDone : Bool
  key : Value
  primaryKey : Value
  value : Value

namespace Cursor

/-- A cursor before its first row. -/
def start (source : Option String) (conditions : List Condition) (direction : Direction)
    (keyOnly : Bool) : Cursor :=
  ⟨source, conditions, direction, keyOnly, none, false, .null, .null, .null⟩

/-- The row that is `offset` rows after the next one. -/
def fetch (cur : Cursor) (c : Collection) (offset : Nat) : Option Entry :=
  (Scan.remaining cur.conditions cur.direction cur.position (c.rows cur.source))[offset]?

/-- Shows the record of the row that the cursor stands on. -/
def showValue (cur : Cursor) (c : Collection) (record : Bytes) : Except Failure Unit × Cursor :=
  if cur.keyOnly then (.ok (), cur)
  else match c.load record with
    | .error f => (.error f, cur)
    | .ok v => (.ok (), { cur with value := v })

/-- Puts the cursor on a row and shows it, as far as it can be shown. -/
def moveTo (cur : Cursor) (c : Collection) (e : Entry) : Except Failure Unit × Cursor :=
  let cur := { cur with position := some e }
  match Key.decode e.1 with
  | .error f => (.error f, cur)
  | .ok key =>
    let cur := { cur with key := key }
    match Key.decode e.2 with
    | .error f => (.error f, cur)
    | .ok primaryKey => { cur with primaryKey := primaryKey }.showValue c e.2

/-- Ends the cursor. -/
def finish (cur : Cursor) : Cursor :=
  { cur with isDone := true, key := .null, primaryKey := .null, value := .null }

/-- Moves the cursor forward by `count` rows, which is at least one; past the last row it is
done. -/
def step (cur : Cursor) (c : Collection) (count : Nat) : Except Failure Unit × Cursor :=
  match cur.fetch c (count - 1) with
  | none => (.ok (), cur.finish)
  | some e => cur.moveTo c e

/-- What the cursor shows: the key, the key of the record and the record; nothing when it is
done. -/
def entry? (cur : Cursor) : Option (Value × Value × Value) :=
  if cur.isDone then none else some (cur.key, cur.primaryKey, cur.value)

/-- Checks that a record may be written back under the cursor: its key must still be the
cursor's. -/
def checkKept (path : KeyPath) (primaryKey record : Value) : Except Failure Unit :=
  match path.find? record with
  | none => .error (.store .cursorKeyChanged)
  | some found =>
    if found.isValidKey then do
      let order ← found.compareKeys primaryKey
      if order = .eq then .ok () else .error (.store .cursorKeyChanged)
    else .error (.store .cursorKeyChanged)

end Cursor
end RecordStore
