import RecordStore.Failure.Basic
import RecordStore.Text.Utf8
import RecordStore.Value.Equality

/-!
Documents: the trees that records are stored as. Dates, bytes and sets become objects with one
member whose name is a tag, and such an object is turned back when it is closed; tuples become
lists. A caller's own object of that form is turned in the same way.
-/

namespace RecordStore

inductive Document where
  | null
  | bool (b : Bool)
  | int (n : Int)
  | float (x : Double)
  | text (s : String)
  | list (items : List Document)
  | object (members : List (String × Document))

instance : Inhabited Document := ⟨.null⟩

namespace Document

def dateTag : String := "$date"
def bytesTag : String := "$bytes"
def setTag : String := "$set"

/-- The greatest number of digits of a whole number in text. -/
def maxDigits : Nat := 4300

mutual

/-- Refuses a mapping with a member whose name is not text, wherever lists and mappings lead to
one. -/
def checkNames : Value → Except StoreFault Unit
  | .dict members => checkMembers members
  | .list items => checkItems items
  | .tuple items => checkItems items
  | _ => .ok ()

def checkItems : List Value → Except StoreFault Unit
  | [] => .ok ()
  | v :: rest => do
    checkNames v
    checkItems rest

def checkMembers : List (Value × Value) → Except StoreFault Unit
  | [] => .ok ()
  | (.text _, v) :: rest => do
    checkNames v
    checkMembers rest
  | (name, _) :: _ => .error (.memberName name)

end

/-- Puts results in the order of their literals. -/
def sortByLiteral {α : Type} (items : List (String × α)) : List α :=
  (items.mergeSort fun a b => decide (a.1 ≤ b.1)).map Prod.snd

/-- All results, or the first fault among them. -/
def sequence {ε α : Type} : List (Except ε α) → Except ε (List α)
  | [] => .ok []
  | r :: rest => do
    let a ← r
    let as ← sequence rest
    .ok (a :: as)

mutual

/-- The document of a value whose mappings have text names. The elements of a set are put in the
order of their literals. -/
def encode : Value → Except StoreFault Document
  | .null => .ok null
  | .bool b => .ok (bool b)
  | .int n =>
    if maxDigits < (Decimal.digitsOf n.natAbs).length then .error .tooManyDigits else .ok (int n)
  | .float x => .ok (float x)
  | .text s => .ok (text s)
  | .bytes b => .ok (object [(bytesTag, text (String.ofList (Base64.encode b)))])
  | .date d => .ok (object [(dateTag, text (String.ofList (IsoText.text 'T' d)))])
  | .list items => (encodeItems items).map list
  | .tuple items => (encodeItems items).map list
  | .set items =>
    (sequence (sortByLiteral (encodeElements items))).map fun ds => object [(setTag, list ds)]
  | .dict members => (encodeMembers members).map object
  | v => .error (.unstorable v.kind)

def encodeItems : List Value → Except StoreFault (List Document)
  | [] => .ok []
  | v :: rest => do
    let d ← encode v
    let ds ← encodeItems rest
    .ok (d :: ds)

/-- The elements of a set with their literals. -/
def encodeElements : List Value → List (String × Except StoreFault Document)
  | [] => []
  | v :: rest => (v.literal, encode v) :: encodeElements rest

def encodeMembers : List (Value × Value) → Except StoreFault (List (String × Document))
  | [] => .ok []
  | (.text s, v) :: rest => do
    let d ← encode v
    let ds ← encodeMembers rest
    .ok ((s, d) :: ds)
  | (name, _) :: _ => .error (.memberName name)

end

/-- The document that a value is stored as. -/
def ofValue (v : Value) : Except StoreFault Document := do
  checkNames v
  encode v

/-- The same element of a set: equal, or not a number both times. -/
def sameElement (v w : Value) : Bool :=
  match v, w with
  | .float x, .float y => (x.isNaN && y.isNaN) || x.equals y
  | v, w => v.equals w

/-- The set of elements that can be in one, put in the order of their literals. -/
def setOfItems (items : List Value) : Except FormatFault Value :=
  match items.findSome? Value.unhashable? with
  | some k => .error (.unhashable k)
  | none =>
    let elements := Value.distinctBy sameElement items
    .ok (.set (sortByLiteral (elements.map fun v => (v.literal, v))))

/-- The set of the things that a value consists of. -/
def setOf : Value → Except FormatFault Value
  | .list items => setOfItems items
  | .tuple items => setOfItems items
  | .set items => .ok (.set items)
  | .text s => setOfItems (s.toList.map fun c => .text (String.ofList [c]))
  | .bytes b => setOfItems (b.map fun n => .int n.toNat)
  | .dict members => setOfItems (members.map Prod.fst)
  | v => .error (.notIterable v.kind)

def dateOf : Value → Except FormatFault Value
  | .text s =>
    match IsoText.read s.toList with
    | .ok d => .ok (.date d)
    | .error f => .error (.date s f)
  | _ => .error .dateNotText

def bytesOf : Value → Except FormatFault Value
  | .text s =>
    if s.toList.all fun c => decide (c.toNat < 128) then ofAscii (Utf8.encode s)
    else .error .base64NotAscii
  | .bytes b => ofAscii b
  | v => .error (.base64Kind v.kind)
where
  ofAscii (b : List UInt8) : Except FormatFault Value :=
    match Base64.decode b with
    | .ok bytes => .ok (.bytes bytes)
    | .error f => .error (.base64 f)

/-- The value of an object when it is closed. A repeated name has its last value; an object with one
member that is a tag stands for something else. -/
def close (members : List (String × Value)) : Except FormatFault Value :=
  let members : List (Value × Value) :=
    members.foldl (fun kept (name, v) => Value.setMember name v kept) []
  match members with
  | [(.text s, v)] =>
    if s = dateTag then dateOf v
    else if s = bytesTag then bytesOf v
    else if s = setTag then setOf v
    else .ok (.dict members)
  | _ => .ok (.dict members)

mutual

/-- The value that a document stands for. All that is not a number stands for one value. -/
def value : Document → Except FormatFault Value
  | null => .ok .null
  | bool b => .ok (.bool b)
  | int n => .ok (.int n)
  | float x => .ok (.float (if x.isNaN then .nan else x))
  | text s => .ok (.text s)
  | list items => (values items).map Value.list
  | object members =>
    match memberValues members with
    | .ok ms => close ms
    | .error f => .error f

def values : List Document → Except FormatFault (List Value)
  | [] => .ok []
  | d :: rest => do
    let v ← value d
    let vs ← values rest
    .ok (v :: vs)

def memberValues : List (String × Document) → Except FormatFault (List (String × Value))
  | [] => .ok []
  | (name, d) :: rest => do
    let v ← value d
    let vs ← memberValues rest
    .ok ((name, v) :: vs)

end

end Document
end RecordStore
