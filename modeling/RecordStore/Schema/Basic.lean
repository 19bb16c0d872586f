import RecordStore.Collection.Basic
import RecordStore.Failure.Basic

/-!
Schemas: the collections that a store is to have, each with the way its records get their keys and
with its indexes. A schema is read from nested mappings, in which whatever does not count as true
may stand for an empty definition.
-/

namespace RecordStore

/-- The definition of one collection. -/
structure CollectionSpec where
  keying : Keying
  indexes : List (String × IndexSpec)

/-- Definitions of collections by name, in the order in which they were given. -/
abbrev Schema := List (String × CollectionSpec)

namespace Schema

/-- The first member that is there under one of some names, and null if none is. -/
def pick (members : List (Value × Value)) : List String → Value
  | [] => .null
  | name :: rest => (Value.member? name members).getD (pick members rest)

/-- The texts in a row of values, if all are texts. -/
def textsOf : List Value → Option (List String)
  | [] => some []
  | .text s :: rest => (textsOf rest).map (s :: ·)
  | _ :: _ => none

/-- A key path: a text, or a row of texts that is not empty. -/
def keyPathOf (context : String) (v : Value) : Except Failure KeyPath :=
  let refused : Except Failure KeyPath := .error (.argument (.keyPath context))
  let row (items : List Value) : Except Failure KeyPath :=
    match items, textsOf items with
    | _ :: _, some paths => .ok (.compound paths)
    | _, _ => refused
  match v with
  | .text s => .ok (.single s)
  | .list items => row items
  | .tuple items => row items
  | _ => refused

/-- The members of a mapping, or none for what does not count as true. -/
def membersOr (fault : ArgumentFault) (v : Value) : Except Failure (List (Value × Value)) :=
  if !v.isTrue then .ok []
  else match v with
    | .dict members => .ok members
    | _ => .error (.argument fault)

/-- A name that is a text and not empty. -/
def nameOf (fault : ArgumentFault) : Value → Except Failure String
  | .text s => if s = "" then .error (.argument fault) else .ok s
  | _ => .error (.argument fault)

/-- A key path as a value, null if there is none. -/
def pathValue (path : Option KeyPath) : Value := (path.map KeyPath.toValue).getD .null

/-- The definition of an index; without a key it is over the field of its own name. -/
def indexOf (collection : String) (name definition : Value) :
    Except Failure (String × IndexSpec) := do
  let name ← nameOf (.indexName collection) name
  let members ← membersOr (.indexShape collection name) definition
  let key := pick members ["key"]
  let path ← keyPathOf ("key of index '" ++ collection ++ "." ++ name ++ "'")
    (if key.isTrue then key else .text name)
  let unique := pick members ["unique"]
  let multiEntry := pick members ["multiEntry", "multi_entry"]
  .ok (name, ⟨some path, unique.isTrue, multiEntry.isTrue⟩)

/-- The way records get their keys. -/
def keyingOf (collection : String) (options : List (Value × Value)) : Except Failure Keying := do
  let path := pick options ["keyPath", "key_path"]
  let path ← if path.isNull then .ok none else
    (keyPathOf ("key path of '" ++ collection ++ "'") path).map some
  .ok ⟨path, (pick options ["autoIncrement", "auto_increment"]).isTrue⟩

/-- The definition of a collection. -/
def collectionOf (name definition : Value) : Except Failure (String × CollectionSpec) := do
  let name ← nameOf .collectionName name
  let members ← membersOr (.definitionShape name) definition
  let options ← membersOr (.keyShape name) (pick members ["key"])
  let keying ← keyingOf name options
  let indexes ← membersOr (.indexesShape name) (pick members ["indexes"])
  let indexes ← indexes.mapM fun (i, d) => indexOf name i d
  .ok (name, ⟨keying, indexes⟩)

/-- Reads a schema. -/
def ofValue : Value → Except Failure Schema
  | .dict members => members.mapM fun (name, definition) => collectionOf name definition
  | _ => .error (.argument .schemaShape)

def indexValue (spec : IndexSpec) : Value :=
  .ofFields [("key_path", pathValue spec.keyPath), ("unique", .bool spec.unique),
    ("multi_entry", .bool spec.multiEntry)]

def collectionValue (spec : CollectionSpec) : Value :=
  .ofFields [("key_path", pathValue spec.keying.keyPath),
    ("auto_increment", .bool spec.keying.autoIncrement),
    ("indexes", .ofFields (spec.indexes.map fun (name, i) => (name, indexValue i)))]

/-- A schema as nested mappings in which everything is said. -/
def toValue (s : Schema) : Value := .ofFields (s.map fun (name, c) => (name, collectionValue c))

end Schema
end RecordStore
