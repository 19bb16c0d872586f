import RecordStore.Contents
import RecordStore.Effect

/-!
The engine: the stores that are kept, by path, and the connections that are open to them. A
connection works on one transaction at a time; a writing one has a draft of the store that nobody
else sees, and a reading one keeps the store as it was at its first read. What listeners are told,
and which callbacks are due, is noted in order.
-/

namespace RecordStore

inductive Mode where
  | readonly | readwrite | versionchange
  deriving DecidableEq, Repr

def Mode.name : Mode → String
  | readonly => "readonly" | readwrite => "readwrite" | versionchange => "versionchange"

inductive EventType where
  | abort | error | versionchange
  deriving DecidableEq, Repr

namespace EventType

def name : EventType → String
  | abort => "abort" | error => "error" | versionchange => "versionchange"

def ofValue? : Value → Option EventType
  | .text "abort" => some abort
  | .text "error" => some error
  | .text "versionchange" => some versionchange
  | _ => none

end EventType

/-- What listeners are told. An error is told by the name of its class. -/
structure Event where
  type : EventType
  oldVersion : Nat
  newVersion : Option Nat
  error : Option String

/-- A listener; it may fail whenever it is told something. -/
structure Listener where
  serial : Nat
  type : EventType
  fails : Bool

/-- What a connection has under way. -/
inductive Work where
  | idle
  /-- A reading transaction, with the store as it was at its first read. -/
  | reading (snapshot : Option Store)
  /-- A writing transaction, with its draft of the store. -/
  | writing (draft : Store)

structure Connection where
  path : String
  version : Nat
  isClosed : Bool
  collectionNames : List String
  listeners : List Listener
  work : Work

instance : Inhabited Connection := ⟨⟨"", 0, true, [], [], .idle⟩⟩

structure Transaction where
  connection : Nat
  scope : List String
  mode : Mode
  isStarted : Bool
  isActive : Bool

instance : Inhabited Transaction := ⟨⟨0, [], .readonly, false, false⟩⟩

/-- What the engine tells the outside. -/
inductive Notice where
  | delivered (listener : Nat) (event : Event)
  /-- The callback with a label is called, as nothing holds its path open any more. -/
  | unblocked (label : String)

structure Engine where
  /-- The stores that are kept, by path. -/
  stores : List (String × Store)
  /-- All connections that were ever made; a connection's number is its place. -/
  connections : List Connection
  /-- All transactions that were ever made. -/
  transactions : List Transaction
  /-- The connections that hold their paths open, in the order in which they were opened. -/
  live : List Nat
  /-- Paths with the labels of callbacks that wait for them to be closed. -/
  waiters : List (String × String)
  listenerCount : Nat
  notices : List Notice

/-- An action of the engine. -/
abbrev Action := Effect Engine

namespace Engine

def initial : Engine := ⟨[], [], [], [], [], 0, []⟩

/-- The store that is kept under a path. -/
def store (e : Engine) (path : String) : Store := (e.stores.lookup path).getD default

/-- Keeps a store under a path. -/
def keep (e : Engine) (path : String) (s : Store) : Engine :=
  { e with stores := (path, s) :: e.stores.filter (·.1 != path) }

/-- Forgets the store under a path. -/
def forget (e : Engine) (path : String) : Engine :=
  { e with stores := e.stores.filter (·.1 != path) }

def connection (e : Engine) (id : Nat) : Connection := e.connections[id]?.getD default

def setConnection (e : Engine) (id : Nat) (c : Connection) : Engine :=
  { e with connections := e.connections.set id c }

def transaction (e : Engine) (id : Nat) : Transaction := e.transactions[id]?.getD default

def setTransaction (e : Engine) (id : Nat) (t : Transaction) : Engine :=
  { e with transactions := e.transactions.set id t }

/-- The connections that hold a path open. -/
def liveAt (e : Engine) (path : String) : List Nat :=
  e.live.filter fun id => (e.connection id).path == path

end Engine

namespace Action

def refuse {α : Type} (f : StoreFault) : Action α := throw (.store f)

def reject {α : Type} (f : ArgumentFault) : Action α := throw (.argument f)

def connection (id : Nat) : Action Connection := return (← get).connection id

def transaction (id : Nat) : Action Transaction := return (← get).transaction id

/-- Tells one listener; one that fails cannot even have its failure reported. -/
def tell (event : Event) (l : Listener) : Action Unit := do
  modify fun e => { e with notices := e.notices ++ [.delivered l.serial event] }
  if l.fails then reject .listenerReport

def tellAll (event : Event) : List Listener → Action Unit
  | [] => pure ()
  | l :: rest => do
    tell event l
    tellAll event rest

/-- Tells the listeners of a connection for a type of event, in the order in which they were
added. -/
def dispatch (id : Nat) (event : Event) : Action Unit := do
  let c ← connection id
  tellAll event (c.listeners.filter (·.type = event.type))

end Action
end RecordStore
