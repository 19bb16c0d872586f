import RecordStore.Value.Literal

/-!
Key paths. A single path names a place in a record by the fields on the way to it, divided by
dots; the empty path is the record itself. A compound path is a row of single ones, and what it
finds is a list.
-/

namespace RecordStore

inductive KeyPath where
  | single (path : String)
  | compound (paths : List String)
  deriving DecidableEq

namespace KeyPath

/-- The parts of a row of characters between those that equal `mark`. -/
def splitOnChar (mark : Char) : List Char → List (List Char)
  | [] => [[]]
  | c :: rest =>
    if c = mark then [] :: splitOnChar mark rest
    else match splitOnChar mark rest with
      | [] => [[c]]
      | part :: parts => (c :: part) :: parts

/-- The fields that a single path passes through. -/
def segments (path : String) : List String := (splitOnChar '.' path.toList).map String.ofList

/-- What the fields lead to, one after the other. -/
def follow : List String → Value → Option Value
  | [], v => some v
  | s :: rest, v => (v.field? s).bind (follow rest)

def findSingle (path : String) (v : Value) : Option Value :=
  if path = "" then some v else follow (segments path) v

/-- What is found at a key path, if every field on the way is there. -/
def find? (path : KeyPath) (v : Value) : Option Value :=
  match path with
  | single p => findSingle p v
  | compound ps => (ps.mapM fun p => findSingle p v).map Value.list

/-- Puts a value at the end of a way through mappings, and adds the mappings that are not there yet.
There is no result when the way leads through something else. -/
def place (key : Value) : List String → Value → Option Value
  | [], _ => none
  | [s], .dict members => some (.dict (Value.setMember s key members))
  | s :: rest, .dict members => do
    let inner ← place key rest ((Value.member? s members).getD (.dict []))
    some (.dict (Value.setMember s inner members))
  | _, _ => none

def toValue : KeyPath → Value
  | single p => .text p
  | compound ps => .list (ps.map Value.text)

def literal (path : KeyPath) : String := path.toValue.literal

end KeyPath
end RecordStore
