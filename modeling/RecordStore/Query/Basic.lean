import RecordStore.Callable
import RecordStore.Collection.Scan

/-!
Queries. A query names a collection, or one of its indexes, and a range in it; it filters what it
meets, takes a window of the matches, and reads, counts or modifies them. A query is only a
description: running it is the matter of `Query.run`.
-/

namespace RecordStore

/-- What a query will do: read records, read keys, write, or count. -/
inductive QueryState where
  | initial | keys | write | count
  deriving DecidableEq, Repr

def QueryState.name : QueryState → String
  | initial => "initial" | keys => "keys" | write => "write" | count => "count"

/-- A condition on a record: a field equals a value, or a function of the caller's agrees. -/
inductive Filter where
  | field (name : String) (value : Value)
  | predicate (f : Callable Value)

namespace Filter

/-- A mapping has a field that strictly equals a value. -/
def fieldMatches (name : String) (value record : Value) : Bool :=
  match record.field? name with
  | some v => v.strictEquals value
  | none => false

/-- Whether a record meets a filter, and the record afterwards, which a function may have
changed. -/
def holds : Filter → Value → Except Failure (Bool × Value)
  | field name value, r => .ok (fieldMatches name value r, r)
  | predicate f, r => (f.call r).map fun (o, r) => (o.isTrue r, r)

/-- Whether a record meets all filters; after the first that it does not meet, none is tried. -/
def allHold : List Filter → Value → Except Failure (Bool × Value)
  | [], r => .ok (true, r)
  | f :: rest, r =>
    match f.holds r with
    | .error e => .error e
    | .ok (false, r) => .ok (false, r)
    | .ok (true, r) => allHold rest r

end Filter

/-- The matches that a query takes: how many it skips, and how many it takes after them. -/
structure Window where
  skip : Nat
  take : Nat
  deriving DecidableEq

/-- Fields to set, each to a value or to what a function yields on the record. -/
abbrev Rule := List (Value × Value)

structure Query where
  collection : Value
  /-- The index that is scanned; null for the collection itself. -/
  index : Value
  range : Value
  state : QueryState
  descending : Bool
  distinct : Bool
  filters : List Filter
  window : Option Window
  rule : Option Rule
  mapper : Option (Callable Value)

namespace Query

/-- A query of all of a range. -/
def ofRange (collection index range : Value) : Query :=
  ⟨collection, index, range, .initial, false, false, [], none, none, none⟩

def direction (q : Query) : Direction :=
  match q.descending, q.distinct with
  | false, false => .next
  | false, true => .nextUnique
  | true, false => .prev
  | true, true => .prevUnique

/-- A query writes when its rule sets something. -/
def isWriting (q : Query) : Bool := q.rule.any fun rule => !rule.isEmpty

end Query

namespace Rule

/-- The value that a rule gives to a field, and the record afterwards. -/
def valueOf (v r : Value) : Except Failure (Value × Value) :=
  match v with
  | .callable f => (f.call r).map fun (o, r) => (o.resolve r, r)
  | v => .ok (v, r)

/-- Sets the fields of a mapping one after the other; functions see what was set before. -/
def setAll : Rule → Value → Except Failure Value
  | [], r => .ok r
  | (name, v) :: rest, r =>
    match valueOf v r with
    | .error e => .error e
    | .ok (v, .dict members) => setAll rest (.dict (Value.insertMember name v members))
    | .ok (_, _) => .error (.argument .recordShape)

/-- A record after a rule is applied to it; only mappings can be modified. -/
def apply (rule : Rule) (r : Value) : Except Failure Value :=
  match r with
  | .dict members => setAll rule (.dict members)
  | _ => .error (.argument .recordShape)

end Rule
end RecordStore
