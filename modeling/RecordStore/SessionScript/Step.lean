import RecordStore.Script.Calls
import RecordStore.Script.Step
import RecordStore.Session.Opening

/-!
Steps of a script that drives sessions. Factories go by labels, and all of them keep their stores
in one directory. An operation on a collection may be reached through the session's member for the
collection.
-/

namespace RecordStore
namespace SessionScript

open Script (Call Building directory)

/-- Where a step's collection is: the session, the collection, and whether it is reached through the
session's member for it. -/
structure Target where
  session : String
  collection : Argument
  isMember : Bool

inductive Step where
  | openSession (factory : Option String) (store : String) (version schema proxies : Argument)
      (supplied : Option (Option CallerFault)) (name : String)
  | deleteStore (factory : Option String) (store : String) (name : String)
  | resume (request : String) (name : String)
  | info (session : String) (factory : Option String)
  | same (first second : String)
  | has (session member : String)
  | close (session : String)
  /-- A block at whose end the session is closed, if it is not closed before. -/
  | block (session : String) (steps : List Step) (fail : Option String)
  | add (target : Target) (records : Except Failure (List Value))
  | update (target : Target) (records : Except Failure (List Value))
  | remove (target : Target) (key : Argument)
  | get (target : Target) (key : Argument)
  | count (target : Target) (key : Argument)
  | clear (target : Target)
  | query (target : Target) (index : Argument) (start : Call) (chain : List Call)
  | build (target : Target) (index : Argument) (start : Call) (chain : List Call) (name : String)
  | chain (on : String) (chain : List Call) (name : String)
  | execute (on : String)
  | dump (session : String)
  /-- A handler is given to a session, or the one of that name again; it may close a session. -/
  | listen (session : String) (event : Argument) (handler : String) (short : Bool)
      (closes : Option String)
  | unlisten (session : String) (event : Argument) (handler : String)
  /-- Steps that run at the same time. -/
  | gather (steps : List Step)

instance : Inhabited Step := ⟨.gather []⟩

/-- A query under construction, with the session it is for. A query of a session that was closed
already can never be executed. -/
structure Chain where
  session : Session
  poisoned : Bool

/-- The state of a running script. -/
structure State where
  hub : Hub
  factories : List (Option String × Factory)
  sessions : List (String × Session)
  building : Building
  /-- What the queries are for, by their numbers. -/
  chains : List Chain
  /-- Handlers with the sessions they close. -/
  handlers : List (String × Option String)
  /-- Steps whose requests were held up, with the places of the requests. -/
  held : List (String × Nat)
  events : List (String × Event)
  notes : List Report

abbrev Run := Effect State

namespace State

def initial : State := ⟨.initial, [], [], .empty, [], [], [], [], []⟩

end State

namespace Run

/-- Runs a task of the hub. -/
def task {α : Type} (t : Task α) : Run α :=
  Effect.focus State.hub (fun h s => { s with hub := h }) t

/-- Carries out an operation of the hub. -/
def operation {α : Type} (o : Operation Hub α) : Operation State α := o.lift task

def hub : Run Hub := return (← get).hub

/-- The settings of all factories. -/
def config : Config := ⟨directory, Config.defaultTimeout, .wal, .normal⟩

/-- The factory with a label, which is made with a registry of its own when it is first used. -/
def factory (label : Option String) : Run Factory := do
  match (← get).factories.lookup label with
  | some f => pure f
  | none => do
    let registry ← task Task.makeRegistry
    let f : Factory := ⟨config, registry⟩
    modify fun s => { s with factories := (label, f) :: s.factories }
    pure f

def session (name : String) : Run Session := do
  match (← get).sessions.lookup name with
  | some x => pure x
  | none => throw (.noHandle name)

/-- Gives a name to a session. -/
def bind (name : String) (x : Session) : Run Unit :=
  modify fun s => { s with sessions := (name, x) :: s.sessions.filter (·.1 != name) }

/-- The session and the collection of a target; the session must have the member that is asked
for. -/
def target (t : Target) (call : String) : Run (Session × Value) := do
  let x ← session t.session
  let collection ← ofExcept t.collection
  if t.isMember && !x.proxies.contains collection.display then
    if Member.isReserved collection.display then
      throw (.argument (.noMember (Member.kindOf collection.display) call))
    else throw (.argument (.noMember "Session" collection.display))
  return (x, collection)

/-- Notes the request of a step that is held up. -/
def noting (name : String) {α : Type} (t : Run α) : Run α := do
  let before := (← hub).retries.length
  tryCatch t fun f => do
    if before < (← hub).retries.length then
      modify fun s => { s with held := (name, before) :: s.held }
    throw f

/-- What is to be known about a session. -/
def report (x : Session) : Run (List (String × Report)) := do
  let h ← hub
  let c := h.connection x.connection
  let state := if c.isClosed then "closed" else "open"
  let shown :=
    "<Session " ++ Literal.ofText c.name ++ " v" ++ toString c.version ++ " " ++ state ++ ">"
  return [("name", .text c.name), ("version", .number c.version),
    ("collections", .texts (h.collectionNames x.connection)), ("closed", .flag c.isClosed),
    ("repr", .text shown)]

/-- Gives a name to a session and reports it. -/
def opened (name : String) (x : Session) : Run Report := do
  bind name x
  return .fields ((← report x) ++ [("schema_calls", .number (← hub).schemaCalls)])

end Run
end SessionScript
end RecordStore
