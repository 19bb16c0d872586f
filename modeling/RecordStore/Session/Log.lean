import RecordStore.Failure.Basic
import RecordStore.Schema.Reconciliation

/-!
What sessions write to the log. An event has a name, a level and named arguments, which are
functions of what happened.
-/

namespace RecordStore

inductive LogEvent where
  | sessionOpened (name : String) (version : Nat) (collections : List String)
  /-- A connection is shared that is open already. -/
  | connectionReused (name : String) (version : Value)
  | schemaReconciled (name : String) (old new : Nat) (dropped created : List String)
  | collectionDropped (collection : String) (version : Nat)
  | collectionCreated (collection : String) (version : Nat)
  | indexCreated (collection index : String)
  /-- Opening or deleting a store is held up; a deletion has no version. -/
  | openBlocked (name : String) (version : Option Nat) (old : Nat)
  | storeDeleted (name : String) (old : Nat)
  | sessionClosed (name : String) (version : Nat)
  | transactionAborted (name : String) (version : Nat) (failure : Failure)
  | connectionEvicted (name : String) (version : Nat)
  | queryExecuted (collection index : Value) (state : String) (size : Nat)

namespace LogEvent

def name : LogEvent → String
  | sessionOpened _ _ _ => "session_opened"
  | connectionReused _ _ => "connection_reused"
  | schemaReconciled _ _ _ _ _ => "schema_reconciled"
  | collectionDropped _ _ => "collection_dropped"
  | collectionCreated _ _ => "collection_created"
  | indexCreated _ _ => "index_created"
  | openBlocked _ _ _ => "open_blocked"
  | storeDeleted _ _ => "store_deleted"
  | sessionClosed _ _ => "session_closed"
  | transactionAborted _ _ _ => "transaction_aborted"
  | connectionEvicted _ _ => "connection_evicted"
  | queryExecuted _ _ _ _ => "query_executed"

def level : LogEvent → String
  | openBlocked _ _ _ | transactionAborted _ _ _ => "warning"
  | connectionEvicted _ _ | queryExecuted _ _ _ _ => "debug"
  | _ => "info"

def number (n : Nat) : Value := .int n

def texts (names : List String) : Value := .list (names.map Value.text)

/-- The arguments of an event. -/
def fields : LogEvent → List (String × Value)
  | sessionOpened n v cs => [("name", .text n), ("version", number v), ("collections", texts cs)]
  | connectionReused n v => [("name", .text n), ("version", v)]
  | schemaReconciled n old new dropped created =>
    [("name", .text n), ("old_version", number old), ("new_version", number new),
      ("dropped", texts dropped), ("created", texts created)]
  | collectionDropped c v => [("collection", .text c), ("version", number v)]
  | collectionCreated c v => [("collection", .text c), ("version", number v)]
  | indexCreated c i => [("collection", .text c), ("index", .text i)]
  | openBlocked n v old =>
    [("name", .text n), ("version", (v.map number).getD .null), ("old_version", number old)]
  | storeDeleted n old => [("name", .text n), ("old_version", number old)]
  | sessionClosed n v => [("name", .text n), ("version", number v)]
  | transactionAborted n v f =>
    [("name", .text n), ("version", number v), ("error", .text f.message),
      ("error_name", .text f.errorName)]
  | connectionEvicted n v => [("name", .text n), ("version", number v)]
  | queryExecuted c i state size =>
    [("collection", c), ("index", i), ("state", .text state), ("size", number size)]

/-- The event of a change that an upgrade to a version made. -/
def ofChange (version : Nat) : SchemaChange → LogEvent
  | .dropped c => collectionDropped c version
  | .created c => collectionCreated c version
  | .indexed c i => indexCreated c i

end LogEvent
end RecordStore
