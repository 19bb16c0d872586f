import RecordStore.Collection.Basic

/-!
Reading from a collection or one of its indexes. A scan goes over rows of encoded keys in one of
four directions; the unique directions visit each index key once, with the lowest key of a record
that it has.
-/

namespace RecordStore

inductive Direction where
  | next | nextUnique | prev | prevUnique
  deriving DecidableEq, Repr

namespace Direction

def name : Direction → String
  | next => "next" | nextUnique => "nextunique" | prev => "prev" | prevUnique => "prevunique"

def ofValue? : Value → Option Direction
  | .text "next" => some next
  | .text "nextunique" => some nextUnique
  | .text "prev" => some prev
  | .text "prevunique" => some prevUnique
  | _ => none

def isForward : Direction → Bool
  | next | nextUnique => true
  | prev | prevUnique => false

def isUnique : Direction → Bool
  | nextUnique | prevUnique => true
  | next | prev => false

end Direction

namespace Scan

/-- The first row of each run of rows with the same index key. -/
def firstPerKey : List Entry → List Entry
  | [] => []
  | [e] => [e]
  | a :: b :: rest =>
    if a.1 = b.1 then
      match firstPerKey (b :: rest) with
      | [] => [a]
      | _ :: others => a :: others
    else a :: firstPerKey (b :: rest)

/-- The rows of a scan in the order in which they are visited. -/
def ordered (d : Direction) (rows : List Entry) : List Entry :=
  let rows := if d.isUnique then firstPerKey rows else rows
  if d.isForward then rows else rows.reverse

/-- A row that comes after a position: by index key in the unique directions, and else by both
keys. -/
def isBeyond (d : Direction) (position e : Entry) : Bool :=
  let (first, second) := if d.isForward then (position, e) else (e, position)
  if d.isUnique then Bytes.lt first.1 second.1 else Entry.lt first second

/-- The rows that are still to be visited. -/
def remaining (conditions : List Condition) (d : Direction) (position : Option Entry)
    (rows : List Entry) : List Entry :=
  (ordered d rows).filter fun e => Condition.allHold conditions e.1 && position.all (isBeyond d · e)

/-- The rows whose keys meet the conditions. -/
def selected (conditions : List Condition) (rows : List Entry) : List Entry :=
  rows.filter fun e => Condition.allHold conditions e.1

end Scan

namespace Collection

/-- The first row of a source whose key meets the conditions. -/
def first? (c : Collection) (source : Option String) (conditions : List Condition) : Option Entry :=
  (Scan.selected conditions (c.rows source)).head?

/-- The record of the first row whose key meets the conditions, and null if there is none. -/
def get (c : Collection) (source : Option String) (conditions : List Condition) :
    Except Failure Value :=
  match c.first? source conditions with
  | none => .ok .null
  | some e => c.load e.2

/-- The key of the record that the first such row leads to, and null if there is none. -/
def getKey (c : Collection) (source : Option String) (conditions : List Condition) :
    Except Failure Value :=
  match c.first? source conditions with
  | none => .ok .null
  | some e => Key.decode e.2

def count (c : Collection) (source : Option String) (conditions : List Condition) : Nat :=
  (Scan.selected conditions (c.rows source)).length

end Collection
end RecordStore
