import RecordStore.Calendar.DateTime
import RecordStore.Number.Double

/-!
The values that callers hand to a store: plain data, and beside them the things that an argument
may be instead, such as a range of keys, a record with its key, or a function of the caller's.
Plain data can be stored, part of it can be a key; the rest is only ever looked at.
-/

namespace RecordStore

/-- The comparisons that a caller's function can make. -/
inductive Relation where
  | gt | gte | lt | lte | eq | ne
  deriving DecidableEq, Repr

/-- Whether one whole number relates to another. -/
def Relation.holds : Relation → Int → Int → Bool
  | gt, m, n => decide (n < m)
  | gte, m, n => decide (n ≤ m)
  | lt, m, n => decide (m < n)
  | lte, m, n => decide (m ≤ n)
  | eq, m, n => m == n
  | ne, m, n => m != n

/-- What a caller's function may be made to fail with. -/
inductive CallerFault where
  | runtime | value | lookup | data | closed
  deriving DecidableEq, Repr

/-- A function of one record, handed in by a caller. Its description is closed: it reads, compares,
computes, changes a field of its argument, or fails. -/
inductive Callable (V : Type) where
  /-- The record, or one field of it. -/
  | argument (field : Option String)
  | constant (value : V)
  /-- The field of a mapping, and null for anything else. -/
  | get (field : String)
  /-- Whether the record is a mapping with the field. -/
  | has (field : String)
  /-- Whether a whole number in the field, or the record itself, relates to `value`. -/
  | compare (field : Option String) (relation : Relation) (value : Int)
  | add (field : Option String) (amount : Int)
  | multiply (field : Option String) (amount : Int)
  /-- Sets a field of the record, and yields true. -/
  | assign (field : String) (value : V)
  | list (of : List (Callable V))
  | failIf (condition : Callable V) (fault : CallerFault) (message : String)
      (otherwise : Callable V)

instance {V : Type} : Inhabited (Callable V) := ⟨.argument none⟩

/-- A range of keys as a caller describes it. The flags are values whose truth counts. -/
inductive Descriptor (V : Type) where
  | equals (value : V)
  | lower (value inclusive : V)
  | upper (value inclusive : V)
  | bound (lower upper lowerInclusive upperInclusive : V)
  | unbounded

/-- A range of keys with its bounds in encoded form. A bound that is not there is null and has no
key; an open bound is not itself in the range. -/
structure KeyRange (V : Type) where
  lower : V
  upper : V
  lowerOpen : Bool
  upperOpen : Bool
  lowerKey : Option (List UInt8)
  upperKey : Option (List UInt8)

inductive Value where
  | null
  | bool (b : Bool)
  | int (n : Int)
  | float (x : Double)
  | text (s : String)
  | bytes (b : List UInt8)
  | date (d : DateTime)
  | list (items : List Value)
  | tuple (items : List Value)
  | set (items : List Value)
  | dict (members : List (Value × Value))
  /-- Something that no operation supports. -/
  | ellipsis
  | descriptor (d : Descriptor Value)
  | keyRange (r : KeyRange Value)
  /-- A record whose key is found in it or generated. -/
  | bare (value : Value)
  /-- A record with the key to store it under. -/
  | keyed (key value : Value)
  | callable (f : Callable Value)

instance : Inhabited Value := ⟨.null⟩

/-- The kinds of value. -/
inductive Kind where
  | null | bool | int | float | text | bytes | date | list | tuple | set | dict | ellipsis
  | equals | lowerBound | upperBound | bound | unbounded | keyRange | bare | keyed | callable
  deriving DecidableEq, Repr

namespace Kind

/-- The name of a kind in messages. -/
def name : Kind → String
  | null => "NoneType" | bool => "bool" | int => "int" | float => "float" | text => "str"
  | bytes => "bytes" | date => "datetime" | list => "list" | tuple => "tuple" | set => "set"
  | dict => "dict" | ellipsis => "ellipsis" | equals => "Equals" | lowerBound => "LowerBound"
  | upperBound => "UpperBound" | bound => "Bound" | unbounded => "_Unbounded"
  | keyRange => "KeyRange" | bare => "Bare" | keyed => "Keyed" | callable => "function"

/-- The place that a kind is defined in, as messages show it before the name. -/
def home : Kind → String
  | date => "datetime."
  | equals | lowerBound | upperBound | bound | unbounded => "kvsession.keyrange."
  | keyRange => "kvsession._store.engine."
  | bare | keyed => "kvsession.session."
  | _ => ""

/-- The name of a kind in messages about what its values cannot do. -/
def typeName : Kind → String
  | date => "datetime.datetime"
  | k => k.name

/-- A kind in full, for a message that refuses values of it. -/
def title (k : Kind) : String := "<class '" ++ k.home ++ k.name ++ "'>"

end Kind

namespace Value

def kind : Value → Kind
  | null => .null | bool _ => .bool | int _ => .int | float _ => .float | text _ => .text
  | bytes _ => .bytes | date _ => .date | list _ => .list | tuple _ => .tuple | set _ => .set
  | dict _ => .dict | ellipsis => .ellipsis
  | descriptor (.equals _) => .equals
  | descriptor (.lower _ _) => .lowerBound
  | descriptor (.upper _ _) => .upperBound
  | descriptor (.bound _ _ _ _) => .bound
  | descriptor .unbounded => .unbounded
  | keyRange _ => .keyRange | bare _ => .bare | keyed _ _ => .keyed | callable _ => .callable

/-- Whether a value counts as true: nulls, zeros and empty things do not. -/
def isTrue : Value → Bool
  | null => false
  | bool b => b
  | int n => n != 0
  | float x => !x.isZero
  | text s => s != ""
  | bytes b => !b.isEmpty
  | list items | tuple items | set items => !items.isEmpty
  | dict members => !members.isEmpty
  | _ => true

def isNull : Value → Bool
  | null => true
  | _ => false

/-- The value under a name, among the members of a mapping. -/
def member? (name : String) : List (Value × Value) → Option Value
  | [] => none
  | (text s, v) :: rest => if s = name then some v else member? name rest
  | _ :: rest => member? name rest

/-- The field of a mapping. -/
def field? (name : String) : Value → Option Value
  | dict members => member? name members
  | _ => none

/-- The members of a mapping after a name is given a value: in place if the name is there, and
else at the end. -/
def setMember (name : String) (value : Value) : List (Value × Value) → List (Value × Value)
  | [] => [(text name, value)]
  | (text s, v) :: rest =>
    if s = name then (text s, value) :: rest else (text s, v) :: setMember name value rest
  | m :: rest => m :: setMember name value rest

/-- A mapping from names to values. -/
def ofFields (fields : List (String × Value)) : Value :=
  dict (fields.map fun (name, v) => (text name, v))

mutual

/-- The kind of the first part that keeps a value from being in a set or a key of a mapping. -/
def unhashable? : Value → Option Kind
  | list _ => some .list
  | set _ => some .set
  | dict _ => some .dict
  | tuple items => unhashableIn? items
  | descriptor (.equals v) => unhashable? v
  | descriptor (.lower v i) => (unhashable? v).or (unhashable? i)
  | descriptor (.upper v i) => (unhashable? v).or (unhashable? i)
  | descriptor (.bound l u i j) =>
    (unhashable? l).or ((unhashable? u).or ((unhashable? i).or (unhashable? j)))
  | keyRange r => unhashableBound? r
  | bare v => unhashable? v
  | keyed k v => (unhashable? k).or (unhashable? v)
  | _ => none

def unhashableIn? : List Value → Option Kind
  | [] => none
  | v :: rest => (unhashable? v).or (unhashableIn? rest)

def unhashableBound? : KeyRange Value → Option Kind
  | ⟨l, u, _, _, _, _⟩ => (unhashable? l).or (unhashable? u)

end

end Value
end RecordStore
