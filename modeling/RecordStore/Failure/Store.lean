import RecordStore.KeyPath.Basic

/-!
What a store refuses. Each cause is a constructor; the name that the store gives an error and the
sentence that explains it are functions of the cause.
-/

namespace RecordStore

/-- The names that a store gives its errors. -/
inductive ErrorName where
  | unknown | constraint | data | notFound | readOnly | version | invalidState
  | transactionInactive | blocked
  deriving DecidableEq, Repr

def ErrorName.text : ErrorName → String
  | unknown => "UnknownError" | constraint => "ConstraintError" | data => "DataError"
  | notFound => "NotFoundError" | readOnly => "ReadOnlyError" | version => "VersionError"
  | invalidState => "InvalidStateError" | transactionInactive => "TransactionInactiveError"
  | blocked => "BlockedError"

inductive StoreFault where
  /-- The value can be no key. -/
  | notKey (v : Value)
  | nanKey
  | dateWithoutZone
  | keyTooDeep
  | unsupportedKey (k : Kind)
  | trailingBytes
  | unterminated
  | corruptEscape
  | unknownTag (tag : UInt8)
  /-- A mapping has a member whose name is not text. -/
  | memberName (name : Value)
  | unstorable (k : Kind)
  /-- A whole number has more digits than text may hold. -/
  | tooManyDigits
  | compoundPart
  | compoundEmpty
  | keyPathShape
  | cannotInject (path : String)
  | boundsCrossed
  | boundsEmpty
  | getWithoutQuery
  | deleteWithoutQuery
  | collectionName
  | generatorPath
  | multiEntryPath
  | keyGiven (collection : String)
  | noKeyAt (path : KeyPath)
  | invalidKeyAt (path : KeyPath)
  | keyRequired (collection : String)
  | cursorKeyChanged
  | collectionExists (name : String)
  | indexExists (index collection : String)
  | duplicateKey (key : Value) (collection : String)
  | duplicateIndexKey (index : String) (key : Value)
  | generatorExhausted
  | noCollection (name : String)
  | outOfScope (name : String)
  | noIndex (index collection : String)
  | readOnly
  | lowerVersion (requested stored : Nat)
  | connectionClosed
  | alreadyStarted
  | createIndexOutsideUpgrade
  | deleteIndexOutsideUpgrade
  | keyCursorUpdate
  | keyCursorDelete
  | cursorExhausted
  | transactionInactive
  /-- Other connections hold the file open; `new` is absent for a deletion. -/
  | blocked (path : String) (old : Nat) (new : Option Nat)
  /-- A caller states the error itself. -/
  | stated (name : ErrorName) (message : String)

namespace StoreFault

def name : StoreFault → ErrorName
  | collectionExists _ | indexExists _ _ | duplicateKey _ _ | duplicateIndexKey _ _
  | generatorExhausted => .constraint
  | noCollection _ | outOfScope _ | noIndex _ _ => .notFound
  | readOnly => .readOnly
  | lowerVersion _ _ => .version
  | connectionClosed | alreadyStarted | createIndexOutsideUpgrade | deleteIndexOutsideUpgrade
  | keyCursorUpdate | keyCursorDelete | cursorExhausted => .invalidState
  | transactionInactive => .transactionInactive
  | blocked _ _ _ => .blocked
  | stated name _ => name
  | _ => .data

/-- A byte as two hexadecimal digits. -/
def hexByte (b : UInt8) : String :=
  String.ofList [Quoted.hexDigit (b.toNat / 16), Quoted.hexDigit (b.toNat % 16)]

def message : StoreFault → String
  | notKey v => v.literal ++ " is not a valid key"
  | nanKey => "NaN is not a valid key"
  | dateWithoutZone => "datetime keys must include timezone info"
  | keyTooDeep => "array key nested too deeply"
  | unsupportedKey k => "unsupported key type: " ++ k.title
  | trailingBytes => "trailing bytes after encoded key"
  | unterminated => "unterminated key segment"
  | corruptEscape => "corrupt escape sequence in key"
  | unknownTag tag => "unknown key tag 0x" ++ hexByte tag
  | memberName name => "mapping keys must be strings, got " ++ name.literal
  | unstorable k => "value of type " ++ k.title ++ " cannot be stored"
  | tooManyDigits =>
    "value cannot be stored: Exceeds the limit (4300 digits) for integer string conversion; " ++
      "use sys.set_int_max_str_digits() to increase the limit"
  | compoundPart => "compound key paths must contain strings"
  | compoundEmpty => "compound key paths must not be empty"
  | keyPathShape => "key path must be a string or a sequence of strings"
  | cannotInject path => "cannot inject key at '" ++ path ++ "'"
  | boundsCrossed => "lower bound is greater than upper bound"
  | boundsEmpty => "bound range with equal open bounds is empty"
  | getWithoutQuery => "get() requires a key or key range"
  | deleteWithoutQuery => "delete() requires a key or key range"
  | collectionName => "collection names must be strings"
  | generatorPath => "auto-increment requires an out-of-line or non-empty string key path"
  | multiEntryPath => "multi-entry indexes require a string key path"
  | keyGiven collection =>
    "collection '" ++ collection ++ "' uses inline keys; explicit keys are not allowed"
  | noKeyAt path => "record has no value at key path " ++ path.literal
  | invalidKeyAt path => "key path " ++ path.literal ++ " yielded an invalid key"
  | keyRequired collection =>
    "collection '" ++ collection ++ "' has no key path or key generator; a key is required"
  | cursorKeyChanged => "updated record's key does not match the cursor position"
  | collectionExists name => "collection '" ++ name ++ "' already exists"
  | indexExists index collection =>
    "index '" ++ index ++ "' already exists on collection '" ++ collection ++ "'"
  | duplicateKey key collection =>
    "key " ++ key.literal ++ " already exists in collection '" ++ collection ++ "'"
  | duplicateIndexKey index key =>
    "unique index '" ++ index ++ "' already holds key " ++ key.literal
  | generatorExhausted => "key generator exhausted"
  | noCollection name => "collection '" ++ name ++ "' does not exist"
  | outOfScope name => "collection '" ++ name ++ "' is not in the transaction scope"
  | noIndex index collection =>
    "index '" ++ index ++ "' does not exist on collection '" ++ collection ++ "'"
  | readOnly => "transaction is read-only"
  | lowerVersion requested stored =>
    "requested version (" ++ toString requested ++ ") is less than the existing version (" ++
      toString stored ++ ")"
  | connectionClosed => "connection is closed"
  | alreadyStarted => "transaction has already started"
  | createIndexOutsideUpgrade => "indexes can only be created during an upgrade"
  | deleteIndexOutsideUpgrade => "indexes can only be deleted during an upgrade"
  | keyCursorUpdate => "key cursors cannot update records"
  | keyCursorDelete => "key cursors cannot delete records"
  | cursorExhausted => "cursor is exhausted"
  | transactionInactive => "transaction is not active"
  | blocked path _ _ => "store at " ++ path ++ " is held open by another connection"
  | stated _ message => message

end StoreFault
end RecordStore
