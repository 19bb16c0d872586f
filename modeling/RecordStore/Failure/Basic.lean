import RecordStore.Failure.Argument
import RecordStore.Failure.Store

/-!
Every way in which a call can fail, for the store itself and for the sessions above it. A session
passes its own failures and those of arguments and formats on, and wraps what the store refuses:
the wrapped failure keeps the store's name for the error and remembers its cause.
-/

namespace RecordStore

inductive Failure where
  | store (fault : StoreFault)
  | format (fault : FormatFault)
  | argument (fault : ArgumentFault)
  /-- A failure of a caller's function or of a script, with its own words. -/
  | raised (category : Category) (message : String)
  | closed (message : String)
  | unknownOperator (operator : Value)
  | unpairedOperators (operators : List Value)
  | operatorCount (count : Nat)
  /-- A failure below the session. -/
  | wrapped (cause : Failure)
  /-- Opening a store is held up by other connections. -/
  | blockedOpen (name : Value) (version : Nat) (cause : StoreFault)
  | blockedDelete (name : Value) (cause : StoreFault)
  | nameCollision (collection : String)
  /-- A script uses a handle that was never made. -/
  | noHandle (name : String)

namespace Failure

/-- The failure of an operation on a closed session. -/
def sessionClosed : Failure := closed "session has been closed"

/-- The class of session failure that a store's error is wrapped in. -/
inductive Wrapping where
  | store | constraint | data | notFound | readOnly | version | invalidState
  deriving DecidableEq, Repr

namespace Wrapping

def ofName : ErrorName → Wrapping
  | .constraint => constraint
  | .data => data
  | .notFound => notFound
  | .readOnly => readOnly
  | .version => version
  | .invalidState | .transactionInactive => invalidState
  | .unknown | .blocked => store

def text : Wrapping → String
  | store => "StoreError" | constraint => "ConstraintError" | data => "DataError"
  | notFound => "NotFoundError" | readOnly => "ReadOnlyError" | version => "VersionError"
  | invalidState => "InvalidStateError"

def code : Wrapping → String
  | store => "STORE" | constraint => "CONSTRAINT" | data => "DATA" | notFound => "NOT_FOUND"
  | readOnly => "READ_ONLY" | version => "VERSION" | invalidState => "INVALID_STATE"

end Wrapping

/-- The class that a failure is wrapped in. -/
def wrapping : Failure → Wrapping
  | store f => .ofName f.name
  | _ => .store

/-- The name of a failure's class. -/
def className : Failure → String
  | store (.stated .unknown _) => "EngineError"
  | store f => f.name.text
  | format f => f.category.name
  | argument f => f.category.name
  | raised c _ => c.name
  | closed _ => "SessionClosedError"
  | unknownOperator _ => "InvalidRangeKeyError"
  | unpairedOperators _ | operatorCount _ => "ConflictingRangeKeysError"
  | wrapped cause => cause.wrapping.text
  | blockedOpen _ _ _ | blockedDelete _ _ => "BlockedUpgradeError"
  | nameCollision _ => "NameCollisionError"
  | noHandle _ => "NoHandle"

/-- The name of a failure's class with the part of the program that it belongs to. -/
def title : Failure → String
  | store f => "engine." ++ className (store f)
  | format f => f.category.title
  | argument f => f.category.title
  | raised c _ => c.title
  | f => f.className

def message : Failure → String
  | store f => f.message
  | format f => f.message
  | argument f => f.message
  | raised _ message => message
  | closed message => message
  | unknownOperator operator =>
    "unknown range operator " ++ operator.literal ++ "; expected one of eq, gt, gte, lt, lte"
  | unpairedOperators operators =>
    "range operators " ++ (Value.list operators).literal ++
      " must pair one of gt/gte with one of lt/lte"
  | operatorCount count => "a range takes one or two operators, got " ++ toString count
  | wrapped cause => cause.message
  | blockedOpen name version _ =>
    "opening '" ++ name.display ++ "' at version " ++ toString version ++
      " is blocked by an open connection"
  | blockedDelete name _ => "deleting '" ++ name.display ++ "' is blocked by an open connection"
  | nameCollision collection =>
    "collection '" ++ collection ++ "' collides with a session attribute"
  | noHandle name => name

/-- The message that an answer shows, if it shows one. -/
def shownMessage : Failure → Option String
  | format .notUtf8 => none
  | f => some f.message

/-- The code of a session's failure. -/
def code? : Failure → Option String
  | closed _ => some "SESSION_CLOSED"
  | unknownOperator _ => some "INVALID_RANGE_KEY"
  | unpairedOperators _ | operatorCount _ => some "CONFLICTING_RANGE_KEYS"
  | wrapped cause => some cause.wrapping.code
  | blockedOpen _ _ _ | blockedDelete _ _ => some "BLOCKED"
  | nameCollision _ => some "NAME_COLLISION"
  | _ => none

/-- What a failure that is passed up from a store calls itself: its own name, or that of its
class. -/
def errorName : Failure → String
  | store f => f.name.text
  | f => f.className

/-- The name of a wrapped failure and of what is inside it. -/
def nameAndCause? : Failure → Option (String × String)
  | wrapped cause => some (cause.errorName, cause.className)
  | blockedOpen _ _ cause | blockedDelete _ cause => some ("BlockedError", (store cause).className)
  | _ => none

/-- The versions that a blocked request was about. -/
def versions? : Failure → Option (Nat × Option Nat)
  | store (.blocked _ old new) => some (old, new)
  | blockedOpen _ _ (.blocked _ old new) => some (old, new)
  | blockedDelete _ (.blocked _ old _) => some (old, none)
  | _ => none

/-- A failure as a session passes it on: its own kind stays as it is. -/
def wrap : Failure → Failure
  | store f => wrapped (store f)
  | format f => wrapped (format f)
  | argument f => wrapped (argument f)
  | raised c m => wrapped (raised c m)
  | f => f

/-- A failure of a check that asks the store alone; what the store refuses is wrapped. -/
def passOn : Failure → Failure
  | store f => wrapped (store f)
  | f => f

/-- A failure of the store or of the storage under it; only these are wrapped when a job fails. -/
def isStoreFailure : Failure → Bool
  | store _ => true
  | argument f => f.category == .operation
  | _ => false

end Failure

def CallerFault.failure (message : String) : CallerFault → Failure
  | runtime => .raised .runtime message
  | value => .raised .value message
  | lookup => .raised .lookup message
  | data => .store (.stated .data message)
  | closed => .closed message

end RecordStore
