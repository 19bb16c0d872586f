import RecordStore.SessionScript.Step

/-!
Performing the steps of a script that drives sessions. After each step the handlers are told what
happened; those that close a session come last, and then the requests that waited for a path are
taken up again.
-/

namespace RecordStore
namespace SessionScript

open Run
open Script (Call Building)

/-- An operation that yields a value. -/
def valueOperation (o : Operation Hub Value) : Operation State Report :=
  (operation o).andThen fun v => return .value v

/-- Starts a query of a session over a collection or index, and carries out calls on it. -/
def buildQuery (x : Session) (collection index : Value) (start : Call) (chain : List Call)
    (name : String) : Run (Stage × Nat × Query) := do
  let q ← ofExcept (start.start collection index)
  let made : Chain := ⟨x, (← hub).isClosed x.connection⟩
  let s ← get
  let place := s.building.queries.length
  let (stage, q) := Call.applyAll chain .query q
  set { s with
    building := { s.building with queries := s.building.queries ++ [q] }
    chains := s.chains ++ [made] }
  let stage ← ofExcept stage
  if name != "" then modify fun s => { s with building := s.building.bind name stage place }
  return (stage, place, q)

/-- Executes a query. -/
def executeQuery (place : Nat) (q : Query) : Run (Operation State Report) := do
  match (← get).chains[place]? with
  | none => throw .sessionClosed
  | some c =>
    if c.poisoned then throw .sessionClosed
    return valueOperation (c.session.execute q)

/-- The stage under a name, with its query. -/
def builtQuery (name : String) : Run (Stage × Nat × Query) := do
  match (← get).building.find? name with
  | some found => pure found
  | none => throw (.noHandle name)

/-- What a request that was held up has come to. -/
def resumed (name : String) (place : Nat) : Run Report := do
  match (← hub).retries[place]?.bind Retry.outcome with
  | none => return .text "pending"
  | some (.error f) => throw f
  | some (.ok (.version n)) => return .number n
  | some (.ok (.session x)) => do
    bind name x
    return .fields (← report x)

/-- Where the schema of an opening comes from. -/
def schemaSource (schema : Argument) (supplied : Option (Option CallerFault)) :
    Except Failure SchemaSource := do
  match supplied with
  | some (some fault) => .ok (.supplier (.error (fault.failure "schema failed")))
  | some none => .ok (.supplier (.ok (← schema)))
  | none => .ok (.value (← schema))

/-- Gives a handler to a session, by the general call or by the one for its type of event. -/
def listen (x : Session) (event : Value) (handler : String) (short : Bool) : Task Unit :=
  if short && (EventType.ofValue? event).isNone then
    throw (.argument (.noMember "Session" ("on_" ++ event.display)))
  else x.listen event handler

mutual

/-- The operation of a step. -/
def operationOf : Step → Operation State Report
  | .openSession label store version schema proxies supplied name => .after do
    let f ← factory label
    let version ← ofExcept version
    let schema ← ofExcept (schemaSource schema supplied)
    let proxies ← ofExcept proxies
    let o := operation (f.openSession store version schema proxies.isTrue)
    return (o.lift (noting name)).andThen (opened name)
  | .deleteStore label store name => .after do
    let f ← factory label
    return ((operation (f.deleteStore store)).lift (noting name)).andThen fun n => return .number n
  | .resume request name => .ofTask do
    match (← get).held.lookup request with
    | none => throw (.noHandle request)
    | some place => resumed name place
  | .info name label => .ofTask do
    let x ← session name
    let f ← factory label
    let keys := ((← hub).registry f.registry).keys
    let registry := Report.list (keys.map fun k => .list [.text k.name, .value k.version])
    return .fields ((← report x) ++ [("registry", registry)])
  | .same first second => .ofTask do
    let x ← session first
    let y ← session second
    return .flag (x.connection == y.connection)
  | .has name member => .ofTask do
    let x ← session name
    return .flag (Member.isReserved member || x.proxies.contains member)
  | .close name => .after do
    let x ← session name
    return (operation x.close).andThen fun _ => return .nothing
  | .block name steps fail => .ofTask do
    let x ← session name
    let results ← performAll steps
    modify fun s => { s with notes := s.notes ++ [.fields [("within", .list results)]] }
    if !(← hub).isClosed x.connection then (operation x.close).run
    match fail with
    | some message => throw (.raised .runtime message)
    | none => return .flag ((← hub).isClosed x.connection)
  | .add t records => .after do
    let (x, collection) ← target t "add"
    return valueOperation (x.add collection (← ofExcept records))
  | .update t records => .after do
    let (x, collection) ← target t "update"
    return valueOperation (x.update collection (← ofExcept records))
  | .remove t key => .after do
    let (x, collection) ← target t "remove"
    return valueOperation (x.remove collection (← ofExcept key))
  | .get t key => .after do
    let (x, collection) ← target t "get"
    return valueOperation (x.get collection (← ofExcept key))
  | .count t key => .after do
    let (x, collection) ← target t "count"
    return valueOperation (x.count collection (← ofExcept key))
  | .clear t => .after do
    let (x, collection) ← target t "clear"
    return valueOperation (x.clear collection)
  | .query t index start chain => .after do
    let (x, collection) ← target t "query"
    let (_, place, q) ← buildQuery x collection (← ofExcept index) start chain ""
    executeQuery place q
  | .build t index start chain name => .ofTask do
    let (x, collection) ← target t "query"
    let (stage, _, q) ← buildQuery x collection (← ofExcept index) start chain name
    return .fields (Report.stage stage q)
  | .chain on chain name => .ofTask do
    let (stage, place, q) ← builtQuery on
    let (stage, q) := Call.applyAll chain stage q
    modify fun s => { s with building := s.building.set place q }
    let stage ← ofExcept stage
    modify fun s => { s with building := s.building.bind name stage place }
    return .fields (Report.stage stage q)
  | .execute on => .after do
    let (_, place, q) ← builtQuery on
    executeQuery place q
  | .dump name => .after do
    let x ← session name
    return operation (x.call (.ok ()) fun _ db => Action.dump db)
  | .listen name event handler short closes => .ofTask do
    let x ← session name
    let event ← ofExcept event
    modify fun s =>
      if s.handlers.any (·.1 == handler) then s
      else { s with handlers := s.handlers ++ [(handler, closes)] }
    task (listen x event handler short)
    return .flag true
  | .unlisten name event handler => .ofTask do
    let x ← session name
    let event ← ofExcept event
    if !(← get).handlers.any (·.1 == handler) then throw (.noHandle handler)
    task (x.unlisten event handler)
    return .flag true
  | .gather steps => .ofTask do
    let results ← Operation.gather (operationsOf steps)
    return .list (results.map Report.ofResult)

/-- The operations of steps that run at the same time. -/
def operationsOf : List Step → List (Operation State Report)
  | [] => []
  | step :: rest => operationOf step :: operationsOf rest

/-- Performs steps one after the other, also past failures, and reports their results. -/
def performAll : List Step → Run (List Report)
  | [] => pure []
  | step :: rest => do
    let first ← Effect.attempt (operationOf step).run
    let others ← performAll rest
    return .ofResult first :: others

end

/-- The name of the handler of a listener. -/
def handlerOf (s : State) (listener : Nat) : String :=
  (s.hub.handlers.lookup listener).getD ""

/-- The session that a handler closes, if it closes one. -/
def closedBy (s : State) (handler : String) : Option String :=
  (s.handlers.lookup handler).join

/-- What handlers are told by notices of the engine: those that close a session come last. -/
def told (s : State) (notices : List Notice) : List (String × Event) :=
  let all := notices.filterMap fun
    | .delivered listener event => some (handlerOf s listener, event)
    | .unblocked _ => none
  all.filter (fun e => (closedBy s e.1).isNone) ++ all.filter fun e => (closedBy s e.1).isSome

/-- Closes the session that a handler closes; it does not matter whether that fails. -/
def closeBy (handler : String) : Run Unit := do
  match closedBy (← get) handler with
  | none => pure ()
  | some name => do
    let x ← session name
    (operation x.close).run

/-- Lets handlers close what they close. -/
def closeAll : List (String × Event) → Run Unit
  | [] => pure ()
  | (handler, _) :: rest => do
    let _ ← Effect.attempt (closeBy handler)
    closeAll rest

/-- Takes up the requests again that notices call for. -/
def takeUpAll : List Notice → Run Unit
  | [] => pure ()
  | .unblocked mark :: rest => do
    task (Task.takeUp mark)
    takeUpAll rest
  | .delivered _ _ :: rest => takeUpAll rest

/-- The most rounds in which notices lead to further ones. -/
def maxRounds : Nat := 1000

/-- Lets handlers and requests that wait react to what happened, until nothing more happens. -/
def settle : Nat → Run Unit
  | 0 => pure ()
  | rounds + 1 => do
    let s ← get
    let notices := s.hub.engine.notices
    if notices.isEmpty then pure ()
    else do
      let events := told s notices
      let hub := { s.hub with engine := { s.hub.engine with notices := [] } }
      set { s with hub := hub, events := s.events ++ events }
      closeAll events
      takeUpAll notices
      settle rounds

/-- What a step answers: its result, what handlers were told, notes, and what was logged. -/
structure Answer where
  result : Except Failure Report
  events : List (String × Event)
  notes : List Report
  log : List LogEvent

/-- Performs a step of the script itself. -/
def answer (s : State) (step : Step) : Answer × State :=
  let s := { s with events := [], notes := [], hub := { s.hub with log := [] } }
  let (result, s) := match (operationOf step).run s with
    | .ok r s => (Except.ok r, s)
    | .error f s => (Except.error f, s)
  let s := match settle maxRounds s with
    | .ok () s => s
    | .error _ s => s
  (⟨result, s.events, s.notes, s.hub.log⟩, s)

/-- The answers of a script, which starts without any stores. -/
def run (steps : List Step) : List Answer :=
  (steps.foldl (fun (answers, s) step =>
    let (a, s) := answer s step
    (answers ++ [a], s)) ([], State.initial)).1

end SessionScript
end RecordStore
