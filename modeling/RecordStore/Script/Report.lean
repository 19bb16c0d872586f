import RecordStore.Engine.Access

/-!
Reports: what a script answers. A report is a tree whose leaves are values or failures, so that an
outer layer only has to choose how values and failures are written.
-/

namespace RecordStore

inductive Report where
  | value (v : Value)
  | failed (f : Failure)
  | list (items : List Report)
  | fields (members : List (String × Report))

/-- An argument of a step; it may be one that could not be built. -/
abbrev Argument := Except Failure Value

namespace Report

def nothing : Report := value .null
def text (s : String) : Report := value (.text s)
def flag (b : Bool) : Report := value (.bool b)
def number (n : Nat) : Report := value (.int n)
def texts (names : List String) : Report := list (names.map text)

/-- The result of a step inside another one. -/
def ofResult : Except Failure Report → Report
  | .ok r => fields [("ok", r)]
  | .error f => failed f

def keyPath (path : Option KeyPath) : Report := value ((path.map KeyPath.toValue).getD .null)

def keying (k : Keying) : List (String × Report) :=
  [("key_path", keyPath k.keyPath), ("auto_increment", flag k.autoIncrement)]

def indexSpec (spec : IndexSpec) : List (String × Report) :=
  [("key_path", keyPath spec.keyPath), ("unique", flag spec.unique),
    ("multi_entry", flag spec.multiEntry)]

/-- What a cursor shows. -/
def entry (cur : Cursor) : Report :=
  match cur.entry? with
  | none => nothing
  | some (key, primaryKey, v) => list [value key, value primaryKey, value v]

end Report

namespace Action

/-- The rows that a cursor still has to show, the one it stands on included, at most `limit` of
them. The cursor is moved along, also when it comes to a row that it cannot show. -/
def walk : Nat → CursorRef → Action (Except Failure (List Cursor) × CursorRef)
  | 0, r => pure (.ok [], r)
  | limit + 1, r =>
    if r.cursor.isDone then pure (.ok [], r)
    else do
      let (result, next) ← r.step 1
      match result with
      | .error f => pure (.error f, next)
      | .ok () => do
        let (others, last) ← walk limit next
        pure (others.map (r.cursor :: ·), last)

/-- All that a cursor shows from its first row on. -/
def rowsOf (r : StoreRef) (source : Option String) (keyOnly : Bool) : Action (List Cursor) := do
  let cursor ← CursorRef.start r source .null (.text "next") keyOnly
  let size := (← r.collection).rows source |>.length
  let (rows, _) ← walk (size + 1) cursor
  ofExcept rows

def dumpIndex (r : StoreRef) (name : String) : Action Report := do
  let i ← r.openIndex (.text name)
  let rows ← rowsOf r (some name) true
  let entries := rows.map fun c => Report.list [.value c.key, .value c.primaryKey]
  return .fields (("name", .text name) :: Report.indexSpec i.spec ++ [("entries", .list entries)])

def dumpIndexes (r : StoreRef) : List String → Action (List Report)
  | [] => pure []
  | name :: rest => do
    let first ← dumpIndex r name
    let others ← dumpIndexes r rest
    return first :: others

/-- A collection with its records and indexes, read through a transaction. -/
def dumpCollection (tx : Nat) (name : String) : Action Report := do
  let r ← openCollection tx (.text name)
  let rows ← rowsOf r none false
  let records := rows.map fun c => Report.list [.value c.key, .value c.value]
  let indexes ← dumpIndexes r (← r.indexNames)
  return .fields (("name", .text name) :: Report.keying r.keying ++
    [("records", .list records), ("indexes", .list indexes)])

def dumpAll (db : Nat) : List String → Action (List Report)
  | [] => pure []
  | name :: rest => do
    let tx ← openTransaction db (.text name) (.text "readonly")
    let first ← within tx (dumpCollection tx name)
    let others ← dumpAll db rest
    return first :: others

/-- All collections of a connection, each read in a transaction of its own. -/
def dump (db : Nat) : Action Report := do
  let c ← connection db
  return .list (← dumpAll db c.collectionNames)

end Action
end RecordStore
