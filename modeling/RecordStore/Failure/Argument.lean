import RecordStore.Failure.Format

/-!
What is wrong with the arguments of a call, apart from what a store itself refuses: a value of the
wrong kind or outside its choices, a call that an object does not have, or a step that comes out
of order.
-/

namespace RecordStore

inductive ArgumentFault where
  | version
  | mode (mode : Value)
  | noCollections
  | eventType (event : Value)
  | direction (direction : Value)
  | advanceCount
  /-- An object has no such member. -/
  | noMember (owner member : String)
  /-- A connection that was closed is used for a statement. -/
  | connectionGone
  | nestedTransaction
  | writerBusy
  /-- A generator is used after its collection was deleted. -/
  | generatorGone
  /-- The report of a listener's failure could not be made. -/
  | listenerReport
  | filterShape
  | filterField
  | filterCount (given : Nat)
  | mapper
  | countKind (what : String)
  | countNegative (what : String)
  | rule
  /-- A query keeps meeting records that it has put ahead of itself. -/
  | endless
  | stage (call state : String)
  | missing (call : String) (names : List String)
  | surplus (call : String) (least most given : Nat)
  | recordShape
  | noField (name : String)
  | noIndexing (k : Kind)
  | indexKind (k : Kind)
  | noAssignment (k : Kind)
  | schemaShape
  | collectionName
  | definitionShape (collection : String)
  | keyShape (collection : String)
  | indexesShape (collection : String)
  | indexName (collection : String)
  | indexShape (collection index : String)
  | keyPath (context : String)
  | storeName

namespace ArgumentFault

def category : ArgumentFault → Category
  | version | mode _ | noCollections | eventType _ | direction _ | advanceCount | connectionGone
  | countNegative _ | collectionName | indexName _ | storeName => .value
  | noMember _ _ => .member
  | nestedTransaction | writerBusy => .operation
  | stage _ _ | endless => .runtime
  | noField _ => .key
  | _ => .type

/-- A row of names, the last one joined by "and". -/
def enumerated : List String → String
  | [] => ""
  | [a] => a
  | [a, b] => a ++ " and " ++ b
  | names => ", ".intercalate names.dropLast ++ ", and " ++ names.getLastD ""

def arguments (n : Nat) : String := "positional argument" ++ (if n = 1 then "" else "s")

def message : ArgumentFault → String
  | version => "version must be a positive integer"
  | mode m => "invalid transaction mode: " ++ m.display
  | noCollections => "transaction requires at least one collection"
  | eventType event => "unrecognized event type " ++ event.display
  | direction d => "invalid cursor direction: " ++ d.display
  | advanceCount => "advance() requires a positive integer count"
  | noMember owner member => "'" ++ owner ++ "' object has no attribute '" ++ member ++ "'"
  | connectionGone => "no active connection"
  | nestedTransaction => "cannot start a transaction within a transaction"
  | writerBusy => "database is locked"
  | generatorGone => "'NoneType' object is not subscriptable"
  | listenerReport => "exception() got multiple values for argument 'event'"
  | filterShape => "filter() takes a predicate or a field name and a value"
  | filterField => "filter() field names must be strings"
  | filterCount given => "filter() takes one or two arguments, got " ++ toString given
  | mapper => "map() requires a callable"
  | countKind what => what ++ " must be an integer"
  | countNegative what => what ++ " must be >= 0"
  | rule => "modify() requires a mapping of field -> value"
  | endless => "the query does not come to an end"
  | stage call state => call ++ "() is not available in the " ++ state ++ " state"
  | missing call names =>
    call ++ "() missing " ++ toString names.length ++ " required " ++ arguments names.length ++
      ": " ++ enumerated (names.map fun n => "'" ++ n ++ "'")
  | surplus call least most given =>
    call ++ "() takes " ++
      (if least = most then toString most ++ " " ++ arguments most
        else "from " ++ toString least ++ " to " ++ toString most ++ " positional arguments") ++
      " but " ++ toString given ++ (if given = 1 then " was given" else " were given")
  | recordShape => "modify() requires records that are mappings"
  | noField name => Literal.ofText name
  | noIndexing k => "'" ++ k.typeName ++ "' object is not subscriptable"
  | indexKind .text => "string indices must be integers, not 'str'"
  | indexKind .bytes => "byte indices must be integers or slices, not str"
  | indexKind k => k.name ++ " indices must be integers or slices, not str"
  | noAssignment k => "'" ++ k.typeName ++ "' object does not support item assignment"
  | schemaShape => "schema must be a mapping from collection name -> definition"
  | collectionName => "collection names must be non-empty strings"
  | definitionShape collection =>
    "definition for collection '" ++ collection ++ "' must be a mapping"
  | keyShape collection =>
    "'key' for collection '" ++ collection ++ "' must be a mapping of key options"
  | indexesShape collection => "'indexes' for collection '" ++ collection ++ "' must be a mapping"
  | indexName collection => "index names of '" ++ collection ++ "' must be non-empty strings"
  | indexShape collection index =>
    "definition for index '" ++ collection ++ "." ++ index ++ "' must be a mapping"
  | keyPath context => context ++ " must be a string or a non-empty sequence of strings"
  | storeName => "store name must be a non-empty string"

end ArgumentFault
end RecordStore
