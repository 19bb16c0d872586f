import RecordStore.Config
import RecordStore.Engine.Connection
import RecordStore.Registry
import RecordStore.Session.Log

/-!
The hub that sessions work on: the engine, the connections that sessions share, and the registries
that the connections are found by. A task changes the hub; what it did before a failure stays
done.
-/

namespace RecordStore

/-- A handler that was given to a connection for a type of event, with the engine's listener for
it. -/
structure Subscription where
  type : EventType
  handler : String
  listener : Nat

/-- A connection that sessions share. It counts as closed from the moment at which closing is
asked for. -/
structure SharedConnection where
  name : String
  version : Nat
  db : Nat
  isClosed : Bool
  /-- The jobs that asked for the connection and are not over. The first of them has it. -/
  jobs : Nat
  subscriptions : List Subscription

instance : Inhabited SharedConnection := ⟨⟨"", 0, 0, true, 0, []⟩⟩

/-- What opens sessions: the settings, and the registry that connections are shared by. -/
structure Factory where
  config : Config
  registry : Nat

/-- One caller's view of a shared connection, with the collections that it has members for. -/
structure Session where
  connection : Nat
  registry : Nat
  proxies : List String

/-- Where the schema of an opening comes from. -/
inductive SchemaSource where
  | value (v : Value)
  /-- A function that yields the schema, or fails. -/
  | supplier (result : Except Failure Value)

/-- What is asked of a factory. -/
inductive Request where
  | openSession (factory : Factory) (name : String) (version : Value) (schema : SchemaSource)
      (proxies : Bool)
  | deleteStore (factory : Factory) (name : String)

/-- What a request yields: a session, or the version that a deleted store had. -/
inductive Reply where
  | session (s : Session)
  | version (n : Nat)

/-- A request that was held up, and its outcome once it was taken up again. -/
structure Retry where
  request : Request
  outcome : Option (Except Failure Reply)

structure Hub where
  engine : Engine
  connections : List SharedConnection
  registries : List Registry
  retries : List Retry
  log : List LogEvent
  /-- How often a schema was asked of a supplier. -/
  schemaCalls : Nat
  /-- The handlers of the engine's listeners. -/
  handlers : List (Nat × String)

abbrev Task := Effect Hub

namespace Hub

def initial : Hub := ⟨.initial, [], [], [], [], 0, []⟩

def connection (h : Hub) (id : Nat) : SharedConnection := h.connections[id]?.getD default

def isClosed (h : Hub) (id : Nat) : Bool := (h.connection id).isClosed

def setConnection (h : Hub) (id : Nat) (c : SharedConnection) : Hub :=
  { h with connections := h.connections.set id c }

def registry (h : Hub) (id : Nat) : Registry := h.registries[id]?.getD default

def setRegistry (h : Hub) (id : Nat) (r : Registry) : Hub :=
  { h with registries := h.registries.set id r }

/-- The collections that a shared connection has. -/
def collectionNames (h : Hub) (id : Nat) : List String :=
  (h.engine.connection (h.connection id).db).collectionNames

end Hub

namespace Task

def engine {α : Type} (a : Action α) : Task α :=
  Effect.focus Hub.engine (fun e h => { h with engine := e }) a

def hub : Task Hub := get

def log (e : LogEvent) : Task Unit := modify fun h => { h with log := h.log ++ [e] }

def connection (id : Nat) : Task SharedConnection := return (← get).connection id

/-- Makes a registry. -/
def makeRegistry : Task Nat := do
  let h ← get
  set { h with registries := h.registries ++ [Registry.empty] }
  return h.registries.length

/-- Looks up the open connection for a name and a version. -/
def lookup (registry : Nat) (k : RegistryKey) : Task (Option Nat) := do
  let h ← get
  let (found, r) := (h.registry registry).get h.isClosed k
  set (h.setRegistry registry r)
  return found

/-- Registers a connection and yields the owner of its key. -/
def register (registry : Nat) (k : RegistryKey) (id : Nat) : Task Nat := do
  let h ← get
  let (owner, r) := (h.registry registry).insert h.isClosed k id
  set (h.setRegistry registry r)
  return owner

/-- Takes a connection out of a registry. -/
def evict (registry : Nat) (id : Nat) : Task Unit := do
  let h ← get
  let c := h.connection id
  let (evicted, r) := (h.registry registry).evict ⟨c.name, .int c.version⟩ (some id)
  set (h.setRegistry registry r)
  if evicted then log (.connectionEvicted c.name c.version)

def modifyConnection (id : Nat) (f : SharedConnection → SharedConnection) : Task Unit :=
  modify fun h => h.setConnection id (f (h.connection id))

/-- Refuses to go on when a connection counts as closed. -/
def ensureOpen (id : Nat) : Task Unit := do
  if (← connection id).isClosed then throw .sessionClosed

end Task

end RecordStore
