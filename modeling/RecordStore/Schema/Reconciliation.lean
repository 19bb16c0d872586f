import RecordStore.Engine.Access
import RecordStore.Schema.Basic

/-!
Bringing a store to a schema during an upgrade. Collections that the schema does not have are
dropped, those that are missing are created, and missing indexes are added; what is there already
is never altered. Each change is noted when it is done, so that the notes of an upgrade that fails
tell how far it came.
-/

namespace RecordStore

/-- A change of the catalog. -/
inductive SchemaChange where
  | dropped (collection : String)
  | created (collection : String)
  | indexed (collection index : String)
  deriving DecidableEq

/-- The engine together with the changes made so far. -/
structure Reconciling where
  engine : Engine
  changes : List SchemaChange

abbrev Reconciliation := Effect Reconciling

namespace Reconciliation

def engine {α : Type} (a : Action α) : Reconciliation α :=
  Effect.focus Reconciling.engine (fun e s => { s with engine := e }) a

def note (change : SchemaChange) : Reconciliation Unit :=
  modify fun s => { s with changes := s.changes ++ [change] }

/-- Drops collections, as far as the schema does not have them. -/
def drop (schema : Schema) (tx : Nat) : List String → Reconciliation Unit
  | [] => pure ()
  | name :: rest => do
    if (schema.lookup name).isNone then
      engine (Action.deleteCollection tx (.text name))
      note (.dropped name)
    drop schema tx rest

/-- Adds indexes that are not among those present. -/
def index (r : StoreRef) (present : List String) : List (String × IndexSpec) → Reconciliation Unit
  | [] => pure ()
  | (name, spec) :: rest => do
    if !present.contains name then
      let _ ← engine (r.createIndex (.text name) (Schema.pathValue spec.keyPath) (.bool spec.unique)
        (.bool spec.multiEntry))
      note (.indexed r.name name)
    index r present rest

/-- Obtains a collection, creating it if it does not exist. -/
def obtain (tx : Nat) (existing : List String) (name : String) (spec : CollectionSpec) :
    Reconciliation StoreRef := do
  if existing.contains name then engine (Action.openCollection tx (.text name))
  else
    let path := Schema.pathValue spec.keying.keyPath
    let r ← engine (Action.createCollection tx (.text name) path (.bool spec.keying.autoIncrement))
    note (.created name)
    pure r

/-- Creates what is missing. -/
def create (tx : Nat) (existing : List String) : Schema → Reconciliation Unit
  | [] => pure ()
  | (name, spec) :: rest => do
    let r ← obtain tx existing name spec
    let present ← engine r.indexNames
    index r present spec.indexes
    create tx existing rest

end Reconciliation

/-- Brings a store to a schema in the transaction of an upgrade. -/
def Schema.reconcile (schema : Schema) (tx : Nat) : Reconciliation Unit := do
  let names ← Reconciliation.engine (Action.collectionNames tx)
  Reconciliation.drop schema tx names
  let existing ← Reconciliation.engine (Action.collectionNames tx)
  Reconciliation.create tx existing schema

/-- The collections dropped by some changes. -/
def SchemaChange.droppedBy (changes : List SchemaChange) : List String :=
  changes.filterMap fun
    | .dropped c => some c
    | _ => none

/-- The collections created by some changes. -/
def SchemaChange.createdBy (changes : List SchemaChange) : List String :=
  changes.filterMap fun
    | .created c => some c
    | _ => none

/-- The indexes created by some changes, each after its collection. -/
def SchemaChange.indexedBy (changes : List SchemaChange) : List (String × String) :=
  changes.filterMap fun
    | .indexed c i => some (c, i)
    | _ => none

end RecordStore
