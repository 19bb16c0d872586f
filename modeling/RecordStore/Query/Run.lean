import RecordStore.Engine.Access
import RecordStore.Query.Basic

/-!
Running queries. A query runs in one transaction of its own: a cursor visits the range in the
direction of the query, the rows to be skipped are passed over at once, and every record that
meets the filters is modified, mapped and taken, until the window is full. The results are there
only once the transaction is committed.
-/

namespace RecordStore

/-- What a query yields. -/
inductive QueryResult where
  | count (n : Nat)
  | results (items : List Value)

namespace QueryResult

def value : QueryResult → Value
  | count n => .int n
  | results items => .list items

/-- The number that is counted, or the number of results. -/
def size : QueryResult → Nat
  | count n => n
  | results items => items.length

end QueryResult

namespace Query

def skip (q : Query) : Nat := (q.window.map Window.skip).getD 0

/-- The window is full when so many rows were skipped or taken. -/
def isFull (q : Query) (passed : Nat) : Bool := q.window.any fun w => w.skip + w.take ≤ passed

/-- What a query looks at: the key of a row, or its record. -/
def subject (q : Query) (c : Cursor) : Value := if q.state = .keys then c.key else c.value

/-- Modifies a record that a cursor stands on and writes it back, if the query has a rule. -/
def modify (q : Query) (r : CursorRef) (record : Value) : Action Value :=
  match q.rule with
  | none | some [] => pure record
  | some rule => do
    let record ← ofExcept (Rule.apply rule record)
    let _ ← r.update record
    pure record

/-- What a query yields for a record. -/
def map (q : Query) (record : Value) : Except Failure Value :=
  match q.mapper with
  | none => .ok record
  | some f => (f.call record).map fun (o, r) => o.resolve r

/-- Visits the rows from a cursor on; `passed` rows were skipped or taken already. A query that
changes the index keys that it scans by may come to a record again, so the number of visits has a
limit of its own. -/
def traverse (q : Query) : Nat → CursorRef → Nat → Action (List Value)
  | 0, _, _ => Action.reject .endless
  | visits + 1, r, passed =>
    if r.cursor.isDone then pure []
    else if passed < q.skip then do
      let (result, next) ← r.step q.skip
      ofExcept result
      traverse q visits next q.skip
    else if q.isFull passed then pure []
    else do
      let (isMatch, record) ← ofExcept (Filter.allHold q.filters (q.subject r.cursor))
      let taken ← if isMatch then do
          let record ← q.modify r record
          pure [← ofExcept (q.map record)]
        else pure []
      let (result, next) ← r.step 1
      ofExcept result
      let others ← traverse q visits next (passed + taken.length)
      return taken ++ others

/-- The visits that a query may make beyond the rows that there are when it starts. -/
def extraVisits : Nat := 2 ^ 53

/-- Runs a query over a range inside a transaction. -/
def scan (q : Query) (tx : Nat) (range : Value) : Action QueryResult := do
  let store ← Action.openCollection tx q.collection
  let source ← if q.index.isNull then pure none else
    let i ← store.openIndex q.index
    pure (some i.name)
  if q.state = .count then return .count (← store.count source range)
  let direction := Value.text q.direction.name
  let r ← CursorRef.start store source range direction (q.state == .keys)
  let rows := (← store.collection).rows source
  return .results (← q.traverse (rows.length + 1 + extraVisits) r 0)

/-- Runs a query over a range that is already resolved, in a transaction on a connection. -/
def run (q : Query) (db : Nat) (range : Value) : Action QueryResult := do
  let mode := Value.text (if q.isWriting then Mode.readwrite else Mode.readonly).name
  let tx ← Action.openTransaction db q.collection mode
  Action.within tx (q.scan tx range)

end Query
end RecordStore
