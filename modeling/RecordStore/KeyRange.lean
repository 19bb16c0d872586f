import RecordStore.Key.Encoding

/-!
Ranges of keys. A range is built from values that must be keys and keeps them in encoded form. It
can be asked whether it includes a key, and it can be turned into conditions on a column of
encoded keys; a scan selects by these conditions.
-/

namespace RecordStore

/-- A condition on an encoded key: how it has to compare with a bound. -/
structure Condition where
  relation : Relation
  bound : Bytes

namespace Condition

def holds (c : Condition) (key : Bytes) : Bool :=
  let order := key.compare c.bound
  match c.relation with
  | .gt => order == .gt
  | .gte => order != .lt
  | .lt => order == .lt
  | .lte => order != .gt
  | .eq => order == .eq
  | .ne => order != .eq

def symbol : Relation → String
  | .gt => ">" | .gte => ">=" | .lt => "<" | .lte => "<=" | .eq => "=" | .ne => "<>"

/-- The condition on a column, its bound left open. -/
def text (column : String) (c : Condition) : String := column ++ " " ++ symbol c.relation ++ " ?"

/-- A key meets all conditions of a row. -/
def allHold (cs : List Condition) (key : Bytes) : Bool := cs.all (·.holds key)

end Condition

namespace KeyRange

/-- The range of one key. -/
def only (v : Value) : Except Failure (KeyRange Value) := do
  let key ← v.encodeKey
  .ok ⟨v, v, false, false, some key, some key⟩

def lowerBound (v : Value) (isOpen : Bool) : Except Failure (KeyRange Value) := do
  let key ← v.encodeKey
  .ok ⟨v, .null, isOpen, true, some key, none⟩

def upperBound (v : Value) (isOpen : Bool) : Except Failure (KeyRange Value) := do
  let key ← v.encodeKey
  .ok ⟨.null, v, true, isOpen, none, some key⟩

/-- The range between two keys; it must not be empty by its bounds alone. -/
def bound (lower upper : Value) (lowerOpen upperOpen : Bool) : Except Failure (KeyRange Value) := do
  let lo ← lower.encodeKey
  let hi ← upper.encodeKey
  if Bytes.lt hi lo then .error (.store .boundsCrossed)
  else if lo = hi ∧ (lowerOpen ∨ upperOpen) then .error (.store .boundsEmpty)
  else .ok ⟨lower, upper, lowerOpen, upperOpen, some lo, some hi⟩

/-- An encoded key lies in a range. -/
def admits (r : KeyRange Value) (key : Bytes) : Bool :=
  (match r.lowerKey with
    | none => true
    | some lo => !(Bytes.lt key lo || (r.lowerOpen && key == lo))) &&
  (match r.upperKey with
    | none => true
    | some hi => !(Bytes.lt hi key || (r.upperOpen && key == hi)))

/-- A key lies in a range. -/
def includes (r : KeyRange Value) (key : Value) : Except Failure Bool := do
  let encoded ← key.encodeKey
  .ok (r.admits encoded)

/-- The conditions that a range puts on a column. -/
def conditions (r : KeyRange Value) : List Condition :=
  (r.lowerKey.toList.map fun key => ⟨if r.lowerOpen then .gt else .gte, key⟩) ++
  (r.upperKey.toList.map fun key => ⟨if r.upperOpen then .lt else .lte, key⟩)

/-- The conditions as text, true when there are none. -/
def conditionText (r : KeyRange Value) (column : String) : String :=
  match r.conditions with
  | [] => "1"
  | cs => " AND ".intercalate (cs.map (·.text column))

/-- The range that an argument asks for: null asks for everything, and what is not a range is one
key. -/
def ofQuery : Value → Except Failure (Option (KeyRange Value))
  | .null => .ok none
  | .keyRange r => .ok (some r)
  | v => (only v).map some

/-- The conditions of a range that may be absent. -/
def conditionsOf (r : Option (KeyRange Value)) : List Condition := (r.map conditions).getD []

end KeyRange
end RecordStore
