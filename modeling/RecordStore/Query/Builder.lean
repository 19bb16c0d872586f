import RecordStore.Query.Basic

/-!
Building queries step by step. A query is started over a range and then changed by calls; which
calls there are depends on the stage that the caller holds, and a call is only carried out in the
state that belongs to the stage. Stages of one query share it: what one of them changes, all of
them see. A call that fails changes nothing.
-/

namespace RecordStore

/-- What a caller holds while a query is built. -/
inductive Stage where
  | query | keyQuery | finalQuery
  deriving DecidableEq, Repr

namespace Stage

def name : Stage → String
  | query => "Query" | keyQuery => "KeyQuery" | finalQuery => "FinalQuery"

/-- The state in which the calls of a stage are carried out. -/
def state : Stage → QueryState
  | keyQuery => .keys
  | query | finalQuery => .initial

end Stage

/-- Calls that start a query. -/
inductive RangeCall where
  | only (v : Value)
  | bound (lower upper lowerInclusive upperInclusive : Value)
  | lowerBound (v inclusive : Value)
  | upperBound (v inclusive : Value)
  /-- A range as a comparison mapping, translated when the query runs. -/
  | range (constraint : Value)
  | all
  /-- Everything, with a filter. -/
  | filter (args : List Value)

/-- Calls that change a query. -/
inductive QueryCall where
  | filter (args : List Value)
  | desc
  | distinct
  /-- One number takes so many; two numbers skip the first and take the second. -/
  | limit (first second : Value)
  | map (f : Value)
  | keys
  | modify (rule : Value)
  | count

/-- The arguments of a call, of which the last may be left out. -/
structure Arity where
  call : String
  required : List String
  optional : Nat

namespace Arity

/-- Refuses too few or too many arguments; the object that is called on counts as one. -/
def check (a : Arity) (args : List Value) : Except Failure Unit :=
  let least := a.required.length
  if args.length < least then .error (.argument (.missing a.call (a.required.drop args.length)))
  else if least + a.optional < args.length then
    .error (.argument (.surplus a.call (least + 1) (least + a.optional + 1) (args.length + 1)))
  else .ok ()

end Arity

/-- An argument, and what it is when it is left out. -/
def argumentOr (args : List Value) (place : Nat) (fallback : Value) : Value :=
  args[place]?.getD fallback

namespace RangeCall

/-- The name of the stage that starts queries. -/
def owner : String := "IndexQuery"

/-- Reads a call that starts a query. -/
def ofName (name : String) (args : List Value) : Except Failure RangeCall :=
  let check (method : String) (required : List String) (optional : Nat) :=
    (Arity.mk (owner ++ "." ++ method) required optional).check args
  let arg := argumentOr args
  match name with
  | "equals" | "only" => (check "equals" ["value"] 0).map fun _ => only (arg 0 .null)
  | "bound" => (check "bound" ["lower", "upper"] 2).map fun _ =>
    bound (arg 0 .null) (arg 1 .null) (arg 2 (.bool true)) (arg 3 (.bool true))
  | "lower_bound" => (check "lower_bound" ["value"] 1).map fun _ =>
    lowerBound (arg 0 .null) (arg 1 (.bool true))
  | "upper_bound" => (check "upper_bound" ["value"] 1).map fun _ =>
    upperBound (arg 0 .null) (arg 1 (.bool true))
  | "range" => (check "range" ["constraint"] 0).map fun _ => range (arg 0 .null)
  | "all" => (check "all" [] 0).map fun _ => all
  | "filter" => .ok (filter args)
  | _ => .error (.argument (.noMember owner name))

/-- The range that a call asks for. -/
def target : RangeCall → Value
  | only v => .descriptor (.equals v)
  | bound l u i j => .descriptor (.bound l u i j)
  | lowerBound v i => .descriptor (.lower v i)
  | upperBound v i => .descriptor (.upper v i)
  | range v => v
  | all | filter _ => .descriptor .unbounded

end RangeCall

namespace QueryCall

/-- Reads a call on a stage. -/
def ofName (stage : Stage) (name : String) (args : List Value) : Except Failure QueryCall :=
  let check (required : List String) (optional : Nat) :=
    (Arity.mk (stage.name ++ "." ++ name) required optional).check args
  let arg := argumentOr args
  match stage, name with
  | .query, "filter" | .keyQuery, "filter" => .ok (filter args)
  | .query, "desc" | .keyQuery, "desc" => (check [] 0).map fun _ => desc
  | .query, "distinct" | .keyQuery, "distinct" => (check [] 0).map fun _ => distinct
  | .query, "map" | .keyQuery, "map" => (check ["fn"] 0).map fun _ => map (arg 0 .null)
  | .query, "limit" => (check ["first"] 1).map fun _ => limit (arg 0 .null) (arg 1 .null)
  | .query, "keys" => (check [] 0).map fun _ => keys
  | .query, "modify" => (check ["rule"] 0).map fun _ => modify (arg 0 .null)
  | .query, "count" => (check [] 0).map fun _ => count
  | _, _ => .error (.argument (.noMember stage.name name))

end QueryCall

namespace Query

/-- Refuses a call of a stage when the query is not in the state of the stage. -/
def ensure (q : Query) (stage : Stage) (call : String) : Except Failure Unit :=
  if q.state = stage.state then .ok () else .error (.argument (.stage call q.state.name))

/-- Adds a filter: a function, or a field and a value. A first argument that does not count as
true adds nothing. -/
def addFilter (q : Query) : List Value → Except Failure Query
  | [] => .ok q
  | first :: rest =>
    if !first.isTrue then .ok q
    else match first, rest with
      | .callable f, [] => .ok { q with filters := q.filters ++ [.predicate f] }
      | _, [] => .error (.argument .filterShape)
      | .text name, [v] => .ok { q with filters := q.filters ++ [.field name v] }
      | _, [_] => .error (.argument .filterField)
      | _, _ => .error (.argument (.filterCount (rest.length + 1)))

/-- The number that an argument of `limit` is. -/
def countOf (what : String) : Value → Except Failure Nat
  | .int n => if n < 0 then .error (.argument (.countNegative what)) else .ok n.toNat
  | _ => .error (.argument (.countKind what))

/-- The window that the arguments of `limit` ask for. -/
def windowOf (first second : Value) : Except Failure Window :=
  if second.isNull then (countOf "limit" first).map (Window.mk 0)
  else do
    let skip ← countOf "skip" first
    let take ← countOf "limit" second
    .ok ⟨skip, take⟩

/-- The rule that an argument of `modify` is. -/
def ruleOf : Value → Except Failure Rule
  | .dict members => .ok members
  | _ => .error (.argument .rule)

/-- The function that an argument of `map` is. -/
def mapperOf : Value → Except Failure (Callable Value)
  | .callable f => .ok f
  | _ => .error (.argument .mapper)

/-- Carries out a call on a stage: the stage that is held afterwards, and the query. -/
def apply (q : Query) (stage : Stage) : QueryCall → Except Failure (Stage × Query)
  | .filter args => do
    q.ensure stage "filter"
    let q ← q.addFilter args
    .ok (stage, q)
  | .desc => do
    q.ensure stage "desc"
    .ok (stage, { q with descending := true })
  | .distinct => do
    q.ensure stage "distinct"
    .ok (stage, { q with distinct := true })
  | .limit first second => do
    let window ← windowOf first second
    q.ensure stage "limit"
    .ok (stage, { q with window := some window })
  | .map f => do
    q.ensure stage "map"
    let f ← mapperOf f
    .ok (stage, { q with mapper := some f })
  | .keys => do
    q.ensure stage "keys"
    .ok (.keyQuery, { q with state := .keys })
  | .modify rule => do
    let rule ← ruleOf rule
    q.ensure stage "modify"
    .ok (.finalQuery, { q with rule := some rule, state := .write })
  | .count => do
    q.ensure stage "count"
    .ok (.finalQuery, { q with state := .count })

/-- Starts a query over a collection or index. -/
def start (collection index : Value) (call : RangeCall) : Except Failure Query :=
  let q := ofRange collection index call.target
  match call with
  | .filter args => q.addFilter args
  | _ => .ok q

end Query
end RecordStore
