import RecordStore.Script.Report

/-!
Steps of a script that drives an engine. A step names the handles that it uses and the one that it
makes. An upgrade and a block have steps of their own, of which each may be told to go on after
its failure.
-/

namespace RecordStore
namespace Script

inductive Step where
  | openStore (path : String) (version : Argument) (upgrade : Option (List Step))
      (callback : Option String) (name : String)
  | close (db : String)
  | deleteStore (path : String) (callback : Option String)
  | live (path : String)
  | dump (db : String)
  | listen (db : String) (event : Argument) (name : String) (fails : Bool)
  | unlisten (db : String) (event : Argument) (listener : String)
  | transaction (db : String) (stores mode : Argument) (begun : Bool) (name : String)
  | begin (tx : String)
  | commit (tx : String)
  | abort (tx : String) (reason : Option String)
  | within (db : String) (stores mode : Argument) (steps : List Step) (fail : Option String)
      (name : String)
  | collection (tx : String) (collection : Argument) (name : String)
  | index (on : String) (index : Argument) (name : String)
  | createCollection (tx : String) (collection keyPath autoIncrement : Argument) (name : String)
  | deleteCollection (tx : String) (collection : Argument)
  | collectionNames (tx : String)
  | createIndex (on : String) (index keyPath unique multiEntry : Argument) (name : String)
  | deleteIndex (on : String) (index : Argument)
  | add (on : String) (value key : Argument)
  | put (on : String) (value key : Argument)
  | get (on : String) (query : Argument)
  | getKey (on : String) (query : Argument)
  | count (on : String) (query : Argument)
  | delete (on : String) (query : Argument)
  | clear (on : String)
  | cursor (on : String) (query direction keyOnly : Argument) (name : String)
  | advance (on : String) (count : Argument)
  | advanceOne (on : String)
  | walk (on : String)
  | entry (on : String)
  | update (on : String) (value : Argument)
  | deleteUnder (on : String)
  /-- A step whose failure does not end the block it is in. -/
  | catching (step : Step)

instance : Inhabited Step := ⟨.live ""⟩

/-- What a handle stands for. -/
inductive Handle where
  | connection (id : Nat)
  | transaction (id : Nat)
  | store (r : StoreRef)
  | index (r : IndexRef)
  | cursor (r : CursorRef)

/-- The state of a running script. -/
structure State where
  engine : Engine
  handles : List (String × Handle)
  /-- The names of listeners, by serial number, the latest first. -/
  listeners : List (Nat × String)
  events : List (String × Event)
  notes : List Report

abbrev Run := Effect State

namespace Run

/-- Runs an action of the engine. -/
def engine {α : Type} (a : Action α) : Run α :=
  Effect.focus State.engine (fun e s => { s with engine := e }) a

/-- Makes a handle. -/
def bind (name : String) (h : Handle) : Run Unit :=
  modify fun s => { s with handles := (name, h) :: s.handles.filter (·.1 != name) }

def handle (name : String) : Run Handle := do
  match (← get).handles.lookup name with
  | some h => pure h
  | none => throw (.noHandle name)

/-- What a handle's class is called in messages. -/
def className : Handle → Run String
  | .connection _ => pure "Database"
  | .transaction id => do
    let t := (← get).engine.transaction id
    pure (if t.mode = .versionchange then "UpgradeTransaction" else "Transaction")
  | .store _ => pure "ObjectStore"
  | .index _ => pure "Index"
  | .cursor _ => pure "Cursor"

/-- Refuses a handle that does not have a member. -/
def lacks {α : Type} (h : Handle) (member : String) : Run α := do
  throw (.argument (.noMember (← className h) member))

def connection (name member : String) : Run Nat := do
  match ← handle name with
  | .connection id => pure id
  | h => lacks h member

def transaction (name member : String) : Run Nat := do
  match ← handle name with
  | .transaction id => pure id
  | h => lacks h member

/-- The transaction of an upgrade. -/
def upgrade (name member : String) : Run Nat := do
  let id ← transaction name member
  let t := (← get).engine.transaction id
  if t.mode = .versionchange then pure id else lacks (.transaction id) member

def store (name member : String) : Run StoreRef := do
  match ← handle name with
  | .store r => pure r
  | h => lacks h member

def index (name member : String) : Run IndexRef := do
  match ← handle name with
  | .index r => pure r
  | h => lacks h member

def cursor (name member : String) : Run CursorRef := do
  match ← handle name with
  | .cursor r => pure r
  | h => lacks h member

/-- A collection, with the name of an index if the handle is one. -/
def source (name member : String) : Run (StoreRef × Option String) := do
  match ← handle name with
  | .store r => pure (r, none)
  | .index i => pure (i.store, some i.name)
  | h => lacks h member

/-- Takes up what the engine told since the last time. -/
def collect : Run Unit :=
  modify fun s =>
    let events := s.engine.notices.filterMap fun
      | .delivered serial event => some ((s.listeners.lookup serial).getD "", event)
      | .unblocked _ => none
    let notes := s.engine.notices.filterMap fun
      | .unblocked label => some (Report.text label)
      | .delivered _ _ => none
    { s with
      engine := { s.engine with notices := [] }
      events := s.events ++ events
      notes := s.notes ++ notes }

/-- Adds a note, after those that are due. -/
def note (r : Report) : Run Unit := do
  collect
  modify fun s => { s with notes := s.notes ++ [r] }

end Run

/-- How the directory of a script is written. -/
def directory : String := "<dir>"

/-- A path as a place in the script's directory, without empty and dotted parts. -/
def place (path : String) : String :=
  let parts := KeyPath.splitOnChar '/' path.toList
  let kept := parts.foldl (fun kept part =>
    if part = [] ∨ part = ['.'] then kept
    else if part = ['.', '.'] then kept.dropLast
    else kept ++ [String.ofList part]) []
  "/".intercalate (directory :: kept)

end Script
end RecordStore
