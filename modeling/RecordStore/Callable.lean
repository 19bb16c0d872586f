import RecordStore.Failure.Basic
import RecordStore.Value.Equality

/-!
Calling a caller's functions. A call may change a field of the record that it is given, and what
it yields may contain the record itself; so a call yields an outcome, in which such places are
left open, together with the record as it then is.
-/

namespace RecordStore

/-- What a call yields. -/
inductive Outcome where
  /-- The record, as it is in the end. -/
  | record
  | value (v : Value)
  | list (items : List Outcome)

namespace Outcome

mutual

/-- The value of an outcome once the record is final. -/
def resolve (r : Value) : Outcome → Value
  | record => r
  | value v => v
  | list items => .list (resolveAll r items)

def resolveAll (r : Value) : List Outcome → List Value
  | [] => []
  | o :: rest => resolve r o :: resolveAll r rest

end

/-- Whether an outcome counts as true, the record being as it is. -/
def isTrue (r : Value) : Outcome → Bool
  | record => r.isTrue
  | value v => v.isTrue
  | list items => !items.isEmpty

end Outcome

namespace Callable

/-- The field of a record; only mappings have fields. -/
def index (r : Value) (field : String) : Except Failure Value :=
  match r with
  | .dict members =>
    match Value.member? field members with
    | some v => .ok v
    | none => .error (.argument (.noField field))
  | .list _ | .tuple _ | .text _ | .bytes _ => .error (.argument (.indexKind r.kind))
  | _ => .error (.argument (.noIndexing r.kind))

/-- A record after one of its fields is set. -/
def setField (r : Value) (field : String) (v : Value) : Except Failure Value :=
  match r with
  | .dict members => .ok (.dict (Value.setMember field v members))
  | .list _ => .error (.argument (.indexKind r.kind))
  | _ => .error (.argument (.noAssignment r.kind))

/-- The whole number in a field of a mapping, or that the record itself is. -/
def number? (r : Value) (field : Option String) : Option Int :=
  let v := match field, r with
    | some f, .dict members => (Value.member? f members).getD .null
    | _, v => v
  match v with
  | .int n => some n
  | _ => none

mutual

/-- Calls a function on a record: what it yields, and the record afterwards. -/
def call : Callable Value → Value → Except Failure (Outcome × Value)
  | argument none, r => .ok (.record, r)
  | argument (some field), r => (index r field).map fun v => (.value v, r)
  | constant v, r => .ok (.value v, r)
  | get field, r => .ok (.value ((r.field? field).getD .null), r)
  | has field, r => .ok (.value (.bool (r.field? field).isSome), r)
  | compare field relation bound, r =>
    .ok (.value (.bool ((number? r field).any (relation.holds · bound))), r)
  | add field amount, r =>
    .ok (.value (((number? r field).map fun n => .int (n + amount)).getD .null), r)
  | multiply field amount, r =>
    .ok (.value (((number? r field).map fun n => .int (n * amount)).getD .null), r)
  | assign field v, r => (setField r field v).map fun r => (.value (.bool true), r)
  | list functions, r => (callAll functions r).map fun (items, r) => (.list items, r)
  | failIf condition fault message otherwise, r =>
    match call condition r with
    | .error f => .error f
    | .ok (o, r) =>
      if o.isTrue r then .error (fault.failure message) else call otherwise r

/-- Calls functions one after the other, each on the record as the one before left it. -/
def callAll : List (Callable Value) → Value → Except Failure (List Outcome × Value)
  | [], r => .ok ([], r)
  | f :: rest, r =>
    match call f r with
    | .error e => .error e
    | .ok (o, r) => (callAll rest r).map fun (items, r) => (o :: items, r)

end

end Callable
end RecordStore
