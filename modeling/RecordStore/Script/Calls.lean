import RecordStore.Query.Builder
import RecordStore.Script.Report

/-!
Calls that build a query, as a script gives them: by name, with arguments. The script keeps each
query under a number, and the stages of it under names of its own.
-/

namespace RecordStore
namespace Script

/-- A call by its name; its arguments may be ones that could not be built. -/
structure Call where
  name : String
  args : Except Failure (List Value)

namespace Call

/-- Starts a query over a collection or index. -/
def start (c : Call) (collection index : Value) : Except Failure Query := do
  let args ← c.args
  let call ← RangeCall.ofName c.name args
  Query.start collection index call

/-- Carries out a call on a stage of a query. -/
def apply (c : Call) (stage : Stage) (q : Query) : Except Failure (Stage × Query) := do
  let args ← c.args
  let call ← QueryCall.ofName stage c.name args
  q.apply stage call

/-- Carries out calls up to the first that fails: the stage that is held then, and the query. -/
def applyAll : List Call → Stage → Query → Except Failure Stage × Query
  | [], stage, q => (.ok stage, q)
  | c :: rest, stage, q =>
    match c.apply stage q with
    | .error f => (.error f, q)
    | .ok (stage, q) => applyAll rest stage q

end Call

end Script

namespace Report

def filter : Filter → Report
  | .field name v => list [text "field", text name, value v]
  | .predicate f => list [text "predicate", value (.callable f)]

def rule (r : Rule) : Report := list (r.map fun (name, v) => list [value name, value v])

/-- A query with all that is known about it. -/
def query (q : Query) : Report :=
  fields [("collection", value q.collection), ("index", value q.index),
    ("key_range", value q.range), ("state", text q.state.name), ("descending", flag q.descending),
    ("distinct", flag q.distinct), ("filters", list (q.filters.map filter)),
    ("window", (q.window.map fun w => list [number w.skip, number w.take]).getD nothing),
    ("modify", (q.rule.map rule).getD nothing),
    ("mapper", (q.mapper.map fun f => value (.callable f)).getD nothing),
    ("keys_only", flag (q.state == .keys)), ("count", flag (q.state == .count)),
    ("direction", text q.direction.name)]

/-- The stage of a query that a script holds. -/
def stage (s : Stage) (q : Query) : List (String × Report) :=
  [("stage", text s.name), ("state", text q.state.name)]

end Report

namespace Script

/-- A call of a script that only builds: what it is called on, and the name of what it yields. An
empty name is the collection or index itself. -/
structure BuildStep where
  on : String
  call : Call
  name : String

/-- The queries of a script, and the names of their stages. -/
structure Building where
  queries : List Query
  handles : List (String × (Stage × Nat))

namespace Building

def empty : Building := ⟨[], []⟩

/-- Gives a name to a stage. -/
def bind (b : Building) (name : String) (stage : Stage) (place : Nat) : Building :=
  { b with handles := (name, stage, place) :: b.handles.filter (·.1 != name) }

/-- Keeps a new query, and gives a name to its first stage. -/
def begin (b : Building) (name : String) (q : Query) : Building :=
  { b with queries := b.queries ++ [q] }.bind name .query b.queries.length

/-- The stage under a name, with its query. -/
def find? (b : Building) (name : String) : Option (Stage × Nat × Query) := do
  let (stage, place) ← b.handles.lookup name
  let q ← b.queries[place]?
  some (stage, place, q)

/-- Replaces a query. -/
def set (b : Building) (place : Nat) (q : Query) : Building :=
  { b with queries := b.queries.set place q }

/-- What a step holds afterwards. -/
def reportOf (stage : Stage) (q : Query) : Report :=
  .fields (Report.stage stage q ++ [("spec", .query q)])

/-- The name of the call that executes a query. -/
def execution : String := "execute"

/-- Carries out a step. Executing is refused, because there is no session behind the query. -/
def perform (collection index : Value) (b : Building) (s : BuildStep) :
    Except Failure Report × Building :=
  if s.on = "" then
    match s.call.start collection index with
    | .error f => (.error f, b)
    | .ok q => (.ok (reportOf .query q), b.begin s.name q)
  else match b.find? s.on with
    | none => (.error (.noHandle s.on), b)
    | some (stage, place, q) =>
      if s.call.name = execution then (.error .sessionClosed, b)
      else match s.call.apply stage q with
        | .error f => (.error f, b)
        | .ok (stage, q) => (.ok (reportOf stage q), (b.set place q).bind s.name stage place)

/-- The results of steps that build queries over a collection or index. -/
def run (collection index : Value) (steps : List BuildStep) : List (Except Failure Report) :=
  (steps.foldl (fun (results, b) s =>
    let (r, b) := perform collection index b s
    (results ++ [r], b)) ([], empty)).1

end Building
end Script
end RecordStore
