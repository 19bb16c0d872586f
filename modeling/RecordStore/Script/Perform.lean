import RecordStore.Script.Step

/-!
Performing the steps of a script. A failing step of an upgrade or a block ends it, unless the step
is told to go on; what the steps did before stays in the report. A failing step of the script
itself does not end the script.
-/

namespace RecordStore
namespace Script

open Run

def transactionReport (tx : Nat) : Run Report := do
  let t := (← get).engine.transaction tx
  return .fields [("mode", .text t.mode.name), ("active", .flag t.isActive)]

def activeReport (tx : Nat) : Run Report := do
  return .flag ((← get).engine.transaction tx).isActive

/-- Makes the handle of a connection that was opened, and reports what the upgrade did. -/
def opened (name : String) (id : Nat) (calls : List Report) : Run Report := do
  Run.bind name (.connection id)
  let c := (← get).engine.connection id
  return .fields [("version", .number c.version), ("stores", .texts c.collectionNames),
    ("upgrade", .list calls)]

/-- Makes the handle of a cursor and shows what it stands on. -/
def showCursor (name : String) (r : CursorRef) : Run Report := do
  Run.bind name (.cursor r)
  return .entry r.cursor

/-- Moves a cursor and shows what it then stands on. -/
def moveCursor (name : String) (r : CursorRef) (count : Nat) : Run Report := do
  engine r.ensurePositioned
  let (result, moved) ← engine (r.step count)
  Run.bind name (.cursor moved)
  ofExcept result
  return .entry moved.cursor

/-- The listener that a name was last given to. -/
def listenerNamed (name : String) : Run Nat := do
  match (← get).listeners.find? (·.2 == name) with
  | some (serial, _) => pure serial
  | none => throw (.noHandle name)

/-- The transaction that an upgrade is known by. -/
def upgradeHandle : String := "up"

/-- The most entries that a walk reports. -/
def walkLimit : Nat := 300

/-- The failure that ended a block, if one did. -/
def outcome : Option Failure → Except Failure Unit
  | none => .ok ()
  | some f => .error f

mutual

/-- Performs one step. -/
def perform : Step → Run Report
  | .openStore path version none callback name => do
    let o ← engine (Action.beginOpen (place path) (← ofExcept version) callback)
    let id ← engine (o.conclude (.ok ()))
    opened name id []
  | .openStore path version (some steps) callback name => do
    let o ← engine (Action.beginOpen (place path) (← ofExcept version) callback)
    match o with
    | .current _ => do
      let id ← engine (o.conclude (.ok ()))
      opened name id []
    | .upgrade _ tx old new => do
      Run.bind upgradeHandle (.transaction tx)
      let (results, failure) ← performAll steps
      let calls := .list [.number old, .number new] :: results
      match ← Effect.attempt (engine (o.conclude (outcome failure))) with
      | .ok id => opened name id calls
      | .error f => do
        note (.fields [("upgrade", .list calls)])
        throw f
  | .close db => do
    let id ← connection db "close"
    engine (Action.close id)
    return .flag ((← get).engine.connection id).isClosed
  | .deleteStore path callback => do
    return .number (← engine (Action.deleteStore (place path) callback))
  | .live path => do
    let e := (← get).engine
    return .list ((e.liveAt (place path)).map fun id => .number (e.connection id).version)
  | .dump db => do
    let id ← connection db "object_store_names"
    engine (Action.dump id)
  | .listen db event name fails => do
    let id ← connection db "add_listener"
    let serial ← engine (Action.addListener id (← ofExcept event) fails)
    modify fun s => { s with listeners := (serial, name) :: s.listeners }
    return .nothing
  | .unlisten db event listener => do
    let id ← connection db "remove_listener"
    let serial ← listenerNamed listener
    engine (Action.removeListener id (← ofExcept event) serial)
    return .nothing
  | .transaction db stores mode begun name => do
    let id ← connection db "transaction"
    let tx ← engine (Action.openTransaction id (← ofExcept stores) (← ofExcept mode))
    if begun then engine (Action.begin tx)
    Run.bind name (.transaction tx)
    transactionReport tx
  | .begin tx => do
    engine (Action.begin (← transaction tx "begin"))
    return .nothing
  | .commit tx => do
    engine (Action.commit (← transaction tx "commit"))
    return .nothing
  | .abort tx reason => do
    let id ← transaction tx "abort"
    engine (Action.abort id (reason.map fun _ => Category.runtime.name))
    activeReport id
  | .within db stores mode steps fail name => do
    let id ← connection db "transaction"
    let tx ← engine (Action.openTransaction id (← ofExcept stores) (← ofExcept mode))
    match ← Effect.attempt (engine (Action.begin tx)) with
    | .error f => do
      note (.fields [("within", .list [])])
      throw f
    | .ok () => do
      Run.bind name (.transaction tx)
      let (results, failure) ← performAll steps
      let failure := failure.or (fail.map (Failure.raised .runtime))
      let result ← Effect.attempt (engine (Action.conclude tx (outcome failure)))
      note (.fields [("within", .list results)])
      ofExcept result
      return .text "committed"
  | .collection tx collection name => do
    let id ← transaction tx "object_store"
    let r ← engine (Action.openCollection id (← ofExcept collection))
    Run.bind name (.store r)
    let indexes ← engine r.indexNames
    return .fields (Report.keying r.keying ++ [("indexes", .texts indexes)])
  | .index on index name => do
    let r ← store on "index"
    let i ← engine (r.openIndex (← ofExcept index))
    Run.bind name (.index i)
    return .fields (Report.indexSpec i.spec)
  | .createCollection tx collection keyPath autoIncrement name => do
    let id ← upgrade tx "create_object_store"
    let r ← engine (Action.createCollection id (← ofExcept collection) (← ofExcept keyPath)
      (← ofExcept autoIncrement))
    Run.bind name (.store r)
    return .fields (Report.keying r.keying)
  | .deleteCollection tx collection => do
    let id ← upgrade tx "delete_object_store"
    engine (Action.deleteCollection id (← ofExcept collection))
    return .nothing
  | .collectionNames tx => do
    let id ← upgrade tx "object_store_names"
    return .texts (← engine (Action.collectionNames id))
  | .createIndex on index keyPath unique multiEntry name => do
    let r ← store on "create_index"
    let i ← engine (r.createIndex (← ofExcept index) (← ofExcept keyPath) (← ofExcept unique)
      (← ofExcept multiEntry))
    Run.bind name (.index i)
    return .fields (Report.indexSpec i.spec)
  | .deleteIndex on index => do
    let r ← store on "delete_index"
    engine (r.deleteIndex (← ofExcept index))
    return .nothing
  | .add on value key => do
    let r ← store on "add"
    return .value (← engine (r.add (← ofExcept value) (← ofExcept key)))
  | .put on value key => do
    let r ← store on "put"
    return .value (← engine (r.put (← ofExcept value) (← ofExcept key)))
  | .get on query => do
    match ← handle on with
    | .store r => return .value (← engine (r.get (← ofExcept query)))
    | .index i => return .value (← engine (i.get (← ofExcept query)))
    | h => lacks h "get"
  | .getKey on query => do
    let i ← index on "get_key"
    return .value (← engine (i.getKey (← ofExcept query)))
  | .count on query => do
    let (r, source) ← source on "count"
    return .number (← engine (r.count source (← ofExcept query)))
  | .delete on query => do
    let r ← store on "delete"
    engine (r.delete (← ofExcept query))
    return .nothing
  | .clear on => do
    let r ← store on "clear"
    engine r.clear
    return .nothing
  | .cursor on query direction keyOnly name => do
    let keyOnly := (← ofExcept keyOnly).isTrue
    let (r, source) ← source on (if keyOnly then "open_key_cursor" else "open_cursor")
    showCursor name
      (← engine (CursorRef.start r source (← ofExcept query) (← ofExcept direction) keyOnly))
  | .advance on count => do
    let r ← cursor on "advance"
    let n ← engine (CursorRef.advanceCount (← ofExcept count))
    moveCursor on r n
  | .advanceOne on => do
    let r ← cursor on "continue_"
    moveCursor on r 1
  | .walk on => do
    let r ← cursor on "done"
    let (rows, last) ← engine (Action.walk walkLimit r)
    Run.bind on (.cursor last)
    return .list ((← ofExcept rows).map Report.entry)
  | .entry on => do
    let r ← cursor on "done"
    return .fields [("done", .flag r.cursor.isDone), ("direction", .text r.cursor.direction.name),
      ("source", .text (r.cursor.source.getD r.store.name)), ("entry", .entry r.cursor)]
  | .update on value => do
    let r ← cursor on "update"
    return .value (← engine (r.update (← ofExcept value)))
  | .deleteUnder on => do
    let r ← cursor on "delete"
    engine r.delete
    return .nothing
  | .catching step => perform step

/-- Performs steps up to the first failure that ends them, and reports their results. -/
def performAll : List Step → Run (List Report × Option Failure)
  | [] => pure ([], none)
  | step :: rest => do
    match ← Effect.attempt (perform step), step with
    | .ok r, _ => do
      let (others, failure) ← performAll rest
      return (.ofResult (.ok r) :: others, failure)
    | .error f, .catching _ => do
      let (others, failure) ← performAll rest
      return (.failed f :: others, failure)
    | .error f, _ => return ([], some f)

end

/-- The state before the first step. -/
def State.initial : State := ⟨.initial, [], [], [], []⟩

/-- What a step answers: its result, what listeners were told, and notes. -/
structure Answer where
  result : Except Failure Report
  events : List (String × Event)
  notes : List Report

/-- Performs a step of the script itself. -/
def answer (s : State) (step : Step) : Answer × State :=
  let (result, s) := match perform step { s with events := [], notes := [] } with
    | .ok r s => (Except.ok r, s)
    | .error f s => (Except.error f, s)
  let s := match Run.collect s with
    | .ok () s => s
    | .error _ s => s
  (⟨result, s.events, s.notes⟩, s)

/-- The answers of a script, which starts without any stores. -/
def run (steps : List Step) : List Answer :=
  (steps.foldl (fun (answers, s) step =>
    let (a, s) := answer s step
    (answers ++ [a], s)) ([], State.initial)).1

end Script
end RecordStore
