import RecordStore.Engine.Transaction

/-!
Connections. Opening a store at a higher version than it has is an upgrade: it needs that no
connection holds the path open, and runs a callback in one transaction that also sets the version.
Whoever is refused for open connections can leave a callback, which is called when the last of
them is closed.
-/

namespace RecordStore
namespace Action

/-- Makes a connection that does not yet hold its path open. -/
def connect (path : String) (version : Nat) : Action Nat := do
  let e ← get
  let c : Connection := ⟨path, version, false, [], [], .idle⟩
  set { e with connections := e.connections ++ [c] }
  return e.connections.length

/-- Closes a connection that never came to hold its path open. -/
def discard (id : Nat) : Action Unit :=
  modify fun e => e.setConnection id { e.connection id with isClosed := true, work := .idle }

/-- Tells connections that the version of their store is about to change. -/
def announce (new : Option Nat) : List Nat → Action Unit
  | [] => pure ()
  | id :: rest => do
    let c ← connection id
    dispatch id ⟨.versionchange, c.version, new, none⟩
    announce new rest

/-- Refuses a change of version while connections hold the path open, after they were told. The
callback is left to wait for them. -/
def checkBlockers (path : String) (old : Nat) (new : Option Nat) (callback : Option String) :
    Action Unit := do
  announce new ((← get).liveAt path)
  let e ← get
  if !(e.liveAt path).isEmpty then
    set { e with waiters := e.waiters ++ callback.toList.map fun label => (path, label) }
    refuse (.blocked path old new)

/-- How far an opening has come without the callback. -/
inductive Opening where
  /-- The store has the version already. -/
  | current (id : Nat)
  /-- A transaction is begun in which the store is to be upgraded. -/
  | upgrade (id tx old new : Nat)

/-- Prepares the transaction of an upgrade. -/
def beginUpgrade (id : Nat) (path : String) (old new : Nat) (callback : Option String) :
    Action Opening := do
  checkBlockers path old (some new) callback
  let tx ← make id [] .versionchange
  begin tx
  return .upgrade id tx old new

/-- Starts to open a store at a version. -/
def beginOpen (path : String) (version : Value) (callback : Option String) : Action Opening := do
  let requested ← match version with
    | .int n => if 1 ≤ n then pure n.toNat else reject .version
    | _ => reject .version
  let stored := ((← get).store path).version
  if requested < stored then refuse (.lowerVersion requested stored)
  let id ← connect path requested
  if requested = stored then return .current id
  tryCatch (beginUpgrade id path stored requested callback) fun f => do
    discard id
    throw f

/-- Lets a connection hold its path open, and notes the collections that there are. -/
def finishOpen (id : Nat) : Action Unit := do
  let e ← get
  let c := e.connection id
  set (e.setConnection id { c with collectionNames := (e.store c.path).contents.names })
  modify fun e => { e with live := e.live ++ [id] }

/-- Gives up an upgrade. -/
def abandon (id tx : Nat) (error : String) : Action Unit := do
  abort tx (some error)
  discard id

/-- Finishes an opening after its upgrade has run: the version is set and the transaction
committed, or all is given up when the upgrade failed. -/
def Opening.conclude : Opening → Except Failure Unit → Action Nat
  | .current id, _ => do
    finishOpen id
    pure id
  | .upgrade id tx _ new, result => do
    let result ← Effect.attempt do
      ofExcept result
      write tx fun s => { s with version := new }
    match result with
    | .ok () => do
      commit tx
      finishOpen id
      pure id
    | .error f => do
      abandon id tx f.className
      throw f

/-- Runs the upgrade of an opening, if it needs one. -/
def Opening.upgradeWith (o : Opening) (upgrade : Nat → Nat → Nat → Action Unit) :
    Action (Except Failure Unit) :=
  match o with
  | .current _ => pure (.ok ())
  | .upgrade _ tx old new => Effect.attempt (upgrade tx old new)

/-- Opens a store at a version, upgrading it if it has a lower one. -/
def openStore (path : String) (version : Value) (callback : Option String)
    (upgrade : Nat → Nat → Nat → Action Unit) : Action Nat := do
  let o ← beginOpen path version callback
  let result ← o.upgradeWith upgrade
  o.conclude result

/-- Calls the callbacks that wait for a path, if nothing holds it open. -/
def release (path : String) : Action Unit := do
  let e ← get
  if (e.liveAt path).isEmpty then
    let due := (e.waiters.filter (·.1 == path)).map fun w => Notice.unblocked w.2
    set { e with waiters := e.waiters.filter (·.1 != path), notices := e.notices ++ due }

/-- Closes a connection; closing it again does nothing. -/
def close (id : Nat) : Action Unit := do
  let c ← connection id
  if !c.isClosed then
    modify (·.setConnection id { c with isClosed := true, work := .idle })
    modify fun e => { e with live := e.live.filter (· != id) }
    release c.path

/-- Deletes the store under a path, and yields the version it had. -/
def deleteStore (path : String) (callback : Option String) : Action Nat := do
  let old := ((← get).store path).version
  checkBlockers path old none callback
  modify (·.forget path)
  return old

def eventType (event : Value) : Action EventType :=
  match event.unhashable?, EventType.ofValue? event with
  | some k, _ => throw (.format (.unhashable k))
  | none, some type => pure type
  | none, none => reject (.eventType event)

/-- Adds a listener to a connection, and yields its serial number. -/
def addListener (id : Nat) (event : Value) (fails : Bool) : Action Nat := do
  let type ← eventType event
  let e ← get
  let c := e.connection id
  let l : Listener := ⟨e.listenerCount, type, fails⟩
  set ({ e with listenerCount := e.listenerCount + 1 }.setConnection id
    { c with listeners := c.listeners ++ [l] })
  return l.serial

/-- Removes a listener from those of a connection for a type of event. -/
def removeListener (id : Nat) (event : Value) (serial : Nat) : Action Unit := do
  let type ← eventType event
  modify fun e =>
    let c := e.connection id
    e.setConnection id
      { c with listeners := c.listeners.filter fun l => !(l.type = type && l.serial = serial) }

end Action
end RecordStore
