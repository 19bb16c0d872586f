import RecordStore.Engine.State

/-!
Transactions. A transaction is begun once; it is active until it is committed or aborted, and only
an active one can be read or written through. A commit keeps the draft; an abort drops it and then
tells the listeners, those for errors first.
-/

namespace RecordStore
namespace Action

def ensureActive (tx : Nat) : Action Transaction := do
  let t ← transaction tx
  if t.isActive then pure t else refuse .transactionInactive

def ensureWritable (tx : Nat) : Action Transaction := do
  let t ← ensureActive tx
  if t.mode = .readonly then refuse .readOnly else pure t

/-- The connection of a transaction, which must be there for a statement. -/
def statement (t : Transaction) : Action Connection := do
  let c ← connection t.connection
  if c.isClosed then reject .connectionGone else pure c

/-- Another connection has a draft of the store under a path. -/
def hasOtherWriter (e : Engine) (id : Nat) (path : String) : Bool :=
  (List.range e.connections.length).any fun other =>
    other != id && (e.connection other).path == path &&
      match (e.connection other).work with
      | .writing _ => true
      | _ => false

/-- Begins a transaction. -/
def begin (tx : Nat) : Action Unit := do
  let t ← transaction tx
  if t.isStarted then refuse .alreadyStarted
  modify (·.setTransaction tx { t with isStarted := true })
  let c ← statement t
  match c.work with
  | .idle => pure ()
  | _ => reject .nestedTransaction
  let e ← get
  if t.mode = .readonly then
    set (e.setConnection t.connection { c with work := .reading none })
  else
    if hasOtherWriter e t.connection c.path then reject .writerBusy
    set (e.setConnection t.connection { c with work := .writing (e.store c.path) })
  modify (·.setTransaction tx { t with isStarted := true, isActive := true })

/-- The store as a transaction sees it. -/
def read (tx : Nat) : Action Store := do
  let t ← ensureActive tx
  let c ← statement t
  match c.work with
  | .writing draft => pure draft
  | .reading (some snapshot) => pure snapshot
  | .reading none => do
    let s := (← get).store c.path
    modify (·.setConnection t.connection { c with work := .reading (some s) })
    pure s
  | .idle => return (← get).store c.path

/-- Changes the draft of a transaction. -/
def write (tx : Nat) (change : Store → Store) : Action Unit := do
  let t ← ensureActive tx
  let c ← statement t
  match c.work with
  | .writing draft =>
    modify (·.setConnection t.connection { c with work := .writing (change draft) })
  | _ => pure ()

/-- Ends a transaction and keeps its draft. -/
def commit (tx : Nat) : Action Unit := do
  let t ← ensureActive tx
  modify (·.setTransaction tx { t with isActive := false })
  let c ← statement t
  match c.work with
  | .writing draft => modify (·.keep c.path draft)
  | _ => pure ()
  modify (·.setConnection t.connection { c with work := .idle })

/-- Ends a transaction, if it is active, and drops its draft; `error` is the class of its
failure. -/
def abort (tx : Nat) (error : Option String) : Action Unit := do
  let t ← transaction tx
  if t.isActive then
    modify (·.setTransaction tx { t with isActive := false })
    let c ← statement t
    modify (·.setConnection t.connection { c with work := .idle })
    if error.isSome then dispatch t.connection ⟨.error, c.version, none, error⟩
    dispatch t.connection ⟨.abort, c.version, none, error⟩

/-- Makes a transaction that is not yet begun. -/
def make (id : Nat) (scope : List String) (mode : Mode) : Action Nat := do
  let e ← get
  let t : Transaction := ⟨id, scope, mode, false, false⟩
  set { e with transactions := e.transactions ++ [t] }
  return e.transactions.length

/-- The names that an argument lists: one text, or the elements of something. -/
def listed : Value → Except FormatFault (List Value)
  | .text s => .ok [.text s]
  | .list items => .ok items
  | .tuple items => .ok items
  | .set items => .ok items
  | .dict members => .ok (members.map Prod.fst)
  | .bytes b => .ok (b.map fun n => .int n.toNat)
  | v => .error (.notIterable v.kind)

/-- The names of collections of a connection, or the first that is none. -/
def known (names : List String) : List Value → Except StoreFault (List String)
  | [] => .ok []
  | .text s :: rest =>
    if names.contains s then (known names rest).map (s :: ·) else .error (.noCollection s)
  | v :: _ => .error (.noCollection v.display)

/-- Makes a transaction over some collections of a connection. -/
def openTransaction (id : Nat) (collections mode : Value) : Action Nat := do
  let c ← connection id
  if c.isClosed then refuse .connectionClosed
  let mode ← match mode with
    | .text "readonly" => pure Mode.readonly
    | .text "readwrite" => pure Mode.readwrite
    | m => reject (.mode m)
  let names ← ofExcept (Key.formatResult (listed collections))
  if names.isEmpty then reject .noCollections
  let scope ← ofExcept (Key.storeResult (known c.collectionNames names))
  make id scope mode

/-- Ends a transaction after a body has run in it: it is committed, or aborted when the body
failed. -/
def conclude {α : Type} (tx : Nat) : Except Failure α → Action α
  | .ok a => do
    commit tx
    pure a
  | .error f => do
    abort tx (some f.className)
    throw f

/-- Begins a transaction, runs a body in it, and ends it. -/
def within {α : Type} (tx : Nat) (body : Action α) : Action α := do
  begin tx
  let result ← Effect.attempt body
  conclude tx result

end Action
end RecordStore
