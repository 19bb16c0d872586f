import RecordStore.Query.Run
import RecordStore.RangeExpression
import RecordStore.Session.Hub
import RecordStore.Turn

/-!
What sessions do with records. Every operation refuses a closed session; then it is one job on the
connection, in one transaction. What the store refuses in a job is logged and passed on wrapped.
Keys are written back into the caller's records only once the whole batch is committed.
-/

namespace RecordStore

/-- A record to write, with the key to store it under; a null key is none. -/
structure Record where
  key : Value
  value : Value

namespace Record

def ofItem : Value → Record
  | .bare v => ⟨.null, v⟩
  | .keyed k v => ⟨k, v⟩
  | v => ⟨.null, v⟩

/-- The records among the arguments of a call, each of which may be a list of records. -/
def ofArguments (args : List Value) : List Record :=
  args.flatMap fun
    | .list items => items.map ofItem
    | v => [ofItem v]

/-- The field that keys are written to where a collection has no key path of one text. -/
def identityField : String := "__id__"

/-- The field of records that a key is written to. -/
def keyField (k : Keying) : String :=
  match k.keyPath with
  | some (.single path) => if path = "" then identityField else path
  | _ => identityField

/-- A record after its key is written to a field, if it is a mapping. -/
def withKey (field : String) (key value : Value) : Value :=
  match value with
  | .dict members => .dict (Value.insertMember (.text field) key members)
  | v => v

end Record

/-- The hub, and the objects of a caller that a batch consists of, in the order of its records. -/
structure Batch where
  hub : Hub
  objects : List Value

namespace Batch

/-- Does something to the hub alone. -/
def onHub {α : Type} (t : Task α) : Effect Batch α :=
  Effect.focus hub (fun h b => { b with hub := h }) t

/-- Does something to a batch that starts with some objects. -/
def starting {α : Type} (objects : List Value) (a : Effect Batch α) : Task α :=
  Effect.focus (fun h => ⟨h, objects⟩) (fun b _ => b.hub) a

/-- Writes keys to a field of the objects. -/
def handBack (field : String) (keys : List Value) (b : Batch) : Batch :=
  { b with objects := List.zipWith (Record.withKey field) keys b.objects }

/-- Ends a batch that is kept: objects that were added get their keys, and all objects are yielded. -/
def answer (overwrite : Bool) (field : String) (keys : List Value) : Effect Batch Value := do
  if !overwrite then modify (·.handBack field keys)
  return .list (← get).objects

end Batch

namespace Action

/-- Writes records one after the other and yields their keys. -/
def writeEach (r : StoreRef) (overwrite : Bool) : List Record → Action (List Value)
  | [] => pure []
  | record :: rest => do
    let key ← r.write record.value record.key overwrite
    let keys ← writeEach r overwrite rest
    return key :: keys

/-- Runs a body on a collection in one transaction. -/
def onCollection {α : Type} (db : Nat) (collection : Value) (mode : Mode)
    (body : StoreRef → Action α) : Action α := do
  let tx ← openTransaction db collection (.text mode.name)
  within tx do
    let r ← openCollection tx collection
    body r

/-- Writes records in one transaction, and yields their keys with the field that keys are written back
to. -/
def writeRecords (db : Nat) (collection : Value) (records : List Record) (overwrite : Bool) :
    Action (List Value × String) :=
  onCollection db collection .readwrite fun r => do
    let keys ← writeEach r overwrite records
    return (keys, Record.keyField r.keying)

end Action

namespace Session

/-- Asks for the connection for a job. A connection that nobody has is had at once; whoever has to
wait is refused what `check` refuses when the turn comes. -/
def queue {α : Type} (s : Session) (check : Task Unit) (job : Task α) : Task (Turn Hub α) := do
  let isFree := (← Task.connection s.connection).jobs = 0
  Task.modifyConnection s.connection fun c => { c with jobs := c.jobs + 1 }
  return .waiting do
    let result ← Effect.attempt do
      if !isFree then check
      job
    Task.modifyConnection s.connection fun c => { c with jobs := c.jobs - 1 }
    ofExcept result

/-- Runs the work of a job in the engine, and logs and wraps what the store refuses. -/
def guarded {α : Type} (s : Session) (body : Nat → Action α) : Task α := do
  let c ← Task.connection s.connection
  tryCatch (Task.engine (body c.db)) fun f => do
    if f.isStoreFailure then
      Task.log (.transactionAborted c.name c.version f)
      throw f.wrap
    else throw f

/-- An operation that is one job once its arguments are resolved. -/
def call {α β : Type} (s : Session) (arguments : Except Failure α) (body : α → Nat → Action β) :
    Operation Hub β where
  enter := do
    Task.ensureOpen s.connection
    let a ← ofExcept arguments
    s.queue (Task.ensureOpen s.connection) (s.guarded (body a))

/-- The range or key that an argument stands for. -/
def resolve (v : Value) : Except Failure Value :=
  (RangeExpression.resolve v).mapError Failure.passOn

/-- Writes a batch of the caller's objects under keys, of which null is none, and answers once all of
the batch is kept. -/
def writeObjects (s : Session) (collection : Value) (keys : List Value) (overwrite : Bool) :
    Operation Batch Value :=
  .after do
    let objects := (← get).objects
    let o := s.call (.ok (List.zipWith Record.mk keys objects)) fun records db =>
      Action.writeRecords db collection records overwrite
    return (o.lift Batch.onHub).andThen fun (keys, field) => Batch.answer overwrite field keys

/-- Writes the records among some arguments, each of which is an object of its own. -/
def write (s : Session) (collection : Value) (args : List Value) (overwrite : Bool) :
    Operation Hub Value :=
  let records := Record.ofArguments args
  (s.writeObjects collection (records.map Record.key) overwrite).lift
    (Batch.starting (records.map Record.value))

/-- Inserts records; a key that is there already fails the whole batch. -/
def add (s : Session) (collection : Value) (args : List Value) : Operation Hub Value :=
  s.write collection args false

/-- Inserts or replaces records. -/
def update (s : Session) (collection : Value) (args : List Value) : Operation Hub Value :=
  s.write collection args true

/-- Deletes the records in a range, and yields what was asked for. -/
def remove (s : Session) (collection key : Value) : Operation Hub Value :=
  (s.call (resolve key) fun range db =>
    Action.onCollection db collection .readwrite fun r => r.delete range).andThen
      fun _ => return key

def clear (s : Session) (collection : Value) : Operation Hub Value :=
  (s.call (.ok ()) fun _ db =>
    Action.onCollection db collection .readwrite StoreRef.clear).andThen fun _ => return .null

/-- The first record in a range, and null if there is none. -/
def get (s : Session) (collection key : Value) : Operation Hub Value :=
  s.call (resolve key) fun range db =>
    Action.onCollection db collection .readonly fun r => r.get range

/-- The number of records in a range; a null key asks for all. -/
def count (s : Session) (collection key : Value) : Operation Hub Value :=
  (s.call (if key.isNull then .ok .null else resolve key) fun range db =>
    Action.onCollection db collection .readonly fun r => r.count none range).andThen
      fun n => return .int n

/-- Runs a query. -/
def execute (s : Session) (q : Query) : Operation Hub Value :=
  (s.call (resolve q.range) fun range db => q.run db range).andThen fun result => do
    Task.log (.queryExecuted q.collection q.index q.state.name result.size)
    return result.value

/-- Closes the connection of a session for all that share it. It counts as closed at once, and is
closed when its turn comes. -/
def close (s : Session) : Operation Hub Unit where
  enter := do
    Task.ensureOpen s.connection
    Task.modifyConnection s.connection fun c => { c with isClosed := true }
    s.queue (pure ()) do
      let c ← Task.connection s.connection
      Task.engine (Action.close c.db)
      Task.evict s.registry s.connection
      Task.log (.sessionClosed c.name c.version)

/-- The type of an event that an argument names. -/
def eventType (event : Value) : Except Failure EventType :=
  match EventType.ofValue? event with
  | some type => .ok type
  | none => .error (.argument (.eventType event))

/-- Gives a handler to the connection; one that has it for this type of event keeps it once. -/
def listen (s : Session) (event : Value) (handler : String) : Task Unit := do
  let type ← ofExcept (eventType event)
  Task.ensureOpen s.connection
  let c ← Task.connection s.connection
  if !c.subscriptions.any fun x => x.type = type && x.handler == handler then
    let listener ← Task.engine (Action.addListener c.db event false)
    let c := { c with subscriptions := c.subscriptions ++ [⟨type, handler, listener⟩] }
    modify fun h =>
      { h.setConnection s.connection c with handlers := h.handlers ++ [(listener, handler)] }

/-- Takes a handler back, if the connection has it. -/
def unlisten (s : Session) (event : Value) (handler : String) : Task Unit := do
  let type ← ofExcept (eventType event)
  let c ← Task.connection s.connection
  match c.subscriptions.find? fun x => x.type = type && x.handler == handler with
  | none => pure ()
  | some found => do
    Task.engine (Action.removeListener c.db event found.listener)
    let kept := c.subscriptions.filter fun x => x.listener != found.listener
    modify fun h => h.setConnection s.connection { c with subscriptions := kept }

end Session
end RecordStore
