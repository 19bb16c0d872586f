import RecordStore.Session.Member
import RecordStore.Session.Operations

/-!
Opening and deleting stores through a factory. A connection that is open for the name and version
is shared; else the store is opened and, when it is upgraded, brought to the schema. A request
that open connections hold up is kept, to be taken up again when they are closed.
-/

namespace RecordStore
namespace Session

/-- Makes a session on a connection, with a member for each collection if it is to have them. A
collection whose name is taken closes the session again. -/
def make (connection registry : Nat) (proxies : Bool) : Task Session := do
  let s : Session := ⟨connection, registry, []⟩
  if !proxies then return s
  let names := (← Task.hub).collectionNames connection
  match names.find? Member.isReserved with
  | none => return { s with proxies := names }
  | some taken => do
    s.close.run
    throw (.nameCollision taken)

end Session

namespace Request

/-- Keeps a request that is held up. -/
def keep (r : Request) : Task Unit :=
  modify fun h => { h with retries := h.retries ++ [⟨r, none⟩] }

/-- The mark that the engine calls back with for the next request to be kept. -/
def nextMark : Task String := return toString (← get).retries.length

end Request

namespace Factory

/-- The schema of an opening, if it has one. A supplier is asked anew each time. -/
def schemaOf : SchemaSource → Task (Option Schema)
  | .value v =>
    if v.isNull then pure none
    else do
      let schema ← ofExcept (Schema.ofValue v)
      return some schema
  | .supplier result => do
    modify fun h => { h with schemaCalls := h.schemaCalls + 1 }
    let v ← ofExcept result
    let schema ← ofExcept (Schema.ofValue v)
    return some schema

/-- Brings a store to a schema in the transaction of an upgrade, and logs what is changed. -/
def reconcile (schema : Schema) (name : String) (tx old new : Nat) : Task Unit := fun h =>
  let logged (s : Reconciling) (h : Hub) : Hub :=
    { h with engine := s.engine, log := h.log ++ s.changes.map (LogEvent.ofChange new) }
  match schema.reconcile tx ⟨h.engine, []⟩ with
  | .ok () s =>
    let dropped := SchemaChange.droppedBy s.changes
    let created := SchemaChange.createdBy s.changes
    Task.log (.schemaReconciled name old new dropped created) (logged s h)
  | .error f s => .error f (logged s h)

/-- Upgrades a store that is about to be opened, if its version is to change. -/
def upgrade (schema : Option Schema) (name : String) : Action.Opening → Task (Except Failure Unit)
  | .upgrade _ tx old new =>
    match schema with
    | some schema => Effect.attempt (reconcile schema name tx old new)
    | none => pure (.ok ())
  | .current _ => pure (.ok ())

/-- Opens a store in the engine. -/
def connect (f : Factory) (name : String) (version : Value) (schema : Option Schema)
    (mark : String) : Task Nat := do
  let path ← ofExcept (f.config.pathFor (.text name))
  let opening ← Task.engine (Action.beginOpen path version (some mark))
  let result ← upgrade schema name opening
  Task.engine (opening.conclude result)

/-- Handles what goes wrong when a request reaches the engine: a request that is held up is kept,
and other failures of the store are wrapped. -/
def held {α : Type} (request : Request) (name : String) (version : Option Nat)
    (blocked : StoreFault → Failure) (t : Task α) : Task α :=
  tryCatch t fun
    | .store (.blocked path old new) => do
      Task.log (.openBlocked name version old)
      request.keep
      throw (blocked (.blocked path old new))
    | f => throw (if f.isStoreFailure then f.wrap else f)

/-- The connection of a store that was opened, shared with whoever opened it meanwhile. -/
def share (f : Factory) (name : String) (version : Value) (db : Nat) : Task Nat := do
  let h ← Task.hub
  let opened := h.engine.connection db
  let id := h.connections.length
  let c : SharedConnection := ⟨name, opened.version, db, false, 0, []⟩
  set { h with connections := h.connections ++ [c] }
  let owner ← Task.register f.registry ⟨name, version⟩ id
  if owner = id then
    Task.log (.sessionOpened name opened.version opened.collectionNames)
  else
    Task.modifyConnection id fun c => { c with isClosed := true }
    Task.engine (Action.close db)
    Task.log (.connectionReused name version)
  return owner

/-- The number that a version is. -/
def versionNumber : Value → Nat
  | .int n => n.toNat
  | _ => 0

/-- Opens a session at a version. -/
def openSession (f : Factory) (name : String) (version : Value) (schema : SchemaSource)
    (proxies : Bool) : Operation Hub Session where
  enter := do
    let key : RegistryKey := ⟨name, version⟩
    ofExcept key.check
    match ← Task.lookup f.registry key with
    | some id => do
      Task.log (.connectionReused name version)
      return .finished (← Session.make id f.registry proxies)
    | none => do
      let schema' ← schemaOf schema
      return .waiting do
        let mark ← Request.nextMark
        let number := versionNumber version
        let db ← held (.openSession f name version schema proxies) name (some number)
          (Failure.blockedOpen (.text name) number)
          (f.connect name version schema' mark)
        let id ← f.share name version db
        Session.make id f.registry proxies

/-- Deletes a store, and yields the version it had. -/
def deleteStore (f : Factory) (name : String) : Operation Hub Nat where
  enter := do
    let path ← ofExcept (f.config.pathFor (.text name))
    return .waiting do
      let mark ← Request.nextMark
      let old ← held (.deleteStore f name) name none (Failure.blockedDelete (.text name))
        (Task.engine (Action.deleteStore path (some mark)))
      Task.log (.storeDeleted name old)
      return old

end Factory

/-- Makes a request. -/
def Request.make : Request → Operation Hub Reply
  | .openSession f name version schema proxies =>
    (f.openSession name version schema proxies).andThen fun s => return .session s
  | .deleteStore f name => (f.deleteStore name).andThen fun n => return .version n

namespace Task

/-- Takes up the request again whose mark the engine calls back with. -/
def takeUp (mark : String) : Task Unit := do
  let place := mark.toNat?.getD 0
  match (← hub).retries[place]? with
  | none => pure ()
  | some r => do
    let outcome ← Effect.attempt r.request.make.run
    modify fun h => { h with retries := h.retries.set place { r with outcome := some outcome } }

end Task
end RecordStore
