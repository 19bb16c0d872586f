import RecordStore.Proofs.Session.Interleaving

/-!
What the work of calls consists of. A transaction is opened and begun, its collection is opened, records are
written one by one, and the transaction is ended: others are let in after each of these.
-/

namespace RecordStore

open Effect

namespace Routine

variable {σ α β : Type}

theorem whole_return (x : α) : (ended (.ok x) : Routine σ α).whole = pure x := rfl

/-- Work in a transaction, which is begun before and ended after. -/
def within (tx : Nat) (body : Routine Engine α) : Routine Engine α :=
  (once (Action.begin tx)).andThen fun _ => body.followedBy fun r => once (Action.conclude tx r)

theorem whole_within (tx : Nat) (body : Routine Engine α) : (within tx body).whole = Action.within tx body.whole := by
  unfold within Action.within
  simp only [whole_andThen, whole_followedBy, whole_once]

/-- Work on a collection in one transaction. -/
def onCollection (db : Nat) (collection : Value) (mode : Mode) (body : StoreRef → Routine Engine α) :
    Routine Engine α :=
  (once (Action.openTransaction db collection (.text mode.name))).andThen fun tx =>
    within tx ((once (Action.openCollection tx collection)).andThen body)

theorem whole_onCollection (db : Nat) (collection : Value) (mode : Mode) (body : StoreRef → Routine Engine α) :
    (onCollection db collection mode body).whole =
      Action.onCollection db collection mode fun r => (body r).whole := by
  unfold onCollection Action.onCollection
  simp only [whole_andThen, whole_within, whole_once]

/-- Work of which the result is told. -/
def map (f : α → β) (x : Routine σ α) : Routine σ β := x.andThen fun y => ended (.ok (f y))

theorem whole_map (f : α → β) (x : Routine σ α) : (x.map f).whole = do return f (← x.whole) := by
  unfold map
  simp only [whole_andThen, whole_return]

/-- Writes records one by one. -/
def writeEach (r : StoreRef) (overwrite : Bool) : List Record → Routine Engine (List Value)
  | [] => ended (.ok [])
  | record :: rest =>
    (once (r.write record.value record.key overwrite)).andThen fun key =>
      (writeEach r overwrite rest).map fun keys => key :: keys

theorem whole_writeEach (r : StoreRef) (overwrite : Bool) (records : List Record) :
    (writeEach r overwrite records).whole = Action.writeEach r overwrite records := by
  induction records with
  | nil => rfl
  | cons record rest ih =>
      unfold writeEach Action.writeEach
      simp only [whole_andThen, whole_map, whole_once, ih]

def writeRecords (db : Nat) (collection : Value) (records : List Record) (overwrite : Bool) :
    Routine Engine (List Value × String) :=
  onCollection db collection .readwrite fun r =>
    (writeEach r overwrite records).map fun keys => (keys, Record.keyField r.keying)

theorem whole_writeRecords (db : Nat) (collection : Value) (records : List Record) (overwrite : Bool) :
    (writeRecords db collection records overwrite).whole = Action.writeRecords db collection records overwrite := by
  unfold writeRecords Action.writeRecords
  simp only [whole_onCollection, whole_map, whole_writeEach]

/-- Runs a query, whose scan is not divided. -/
def query (q : Query) (db : Nat) (range : Value) : Routine Engine QueryResult :=
  (once (Action.openTransaction db q.collection
    (.text (if q.isWriting then Mode.readwrite else Mode.readonly).name))).andThen fun tx =>
      within tx (once (q.scan tx range))

theorem whole_query (q : Query) (db : Nat) (range : Value) : (query q db range).whole = q.run db range := by
  unfold query Query.run
  simp only [whole_andThen, whole_within, whole_once]

end Routine

namespace Session

open Routine

/-- The work of a call in parts. -/
def Call.parts? : Call → Option (Except Failure (Nat → Routine Engine Account))
  | add collection args => some (.ok fun db =>
    (writeRecords db collection (Record.ofArguments args) false).map fun made => (handBack args false made, []))
  | update collection args => some (.ok fun db =>
    (writeRecords db collection (Record.ofArguments args) true).map fun made => (handBack args true made, []))
  | remove collection key => some ((resolve key).map fun range db =>
    (onCollection db collection .readwrite fun r => once (r.delete range)).map fun _ => (key, []))
  | clear collection => some (.ok fun db =>
    (onCollection db collection .readwrite fun r => once r.clear).map fun _ => (.null, []))
  | get collection key => some ((resolve key).map fun range db =>
    (onCollection db collection .readonly fun r => once (r.get range)).map fun v => (v, []))
  | count collection key => some ((if key.isNull then .ok .null else resolve key).map fun range db =>
    (onCollection db collection .readonly fun r => once (r.count none range)).map fun n : Nat => (.int n, []))
  | execute q => some ((resolve q.range).map fun range db =>
    (query q db range).map fun result =>
      (result.value, [.queryExecuted q.collection q.index q.state.name result.size]))
  | close => some (.ok fun db => (once (Action.close db)).map fun _ => (.null, []))
  | listen _ _ => none
  | unlisten _ _ => none

theorem exceptMap_map {α β γ : Type*} (r : Except Failure α) (f : α → β) (g : β → γ) :
    (r.map f).map g = r.map fun a => g (f a) := by
  cases r with
  | ok a => rfl
  | error e => rfl

/-- The parts of a call make up its work. -/
theorem Call.work?_eq_parts? (c : Call) : c.work? = c.parts?.map fun parts => parts.map fun f db => (f db).whole := by
  cases c with
  | add collection args => simp only [work?, parts?, Option.map_some, Except.map, whole_map, whole_writeRecords]
  | update collection args => simp only [work?, parts?, Option.map_some, Except.map, whole_map, whole_writeRecords]
  | remove collection key =>
      simp only [work?, parts?, Option.map_some, exceptMap_map, whole_map, whole_onCollection, whole_once]
  | clear collection =>
      simp only [work?, parts?, Option.map_some, Except.map, whole_map, whole_onCollection, whole_once]
  | get collection key =>
      simp only [work?, parts?, Option.map_some, exceptMap_map, whole_map, whole_onCollection, whole_once]
  | count collection key =>
      simp only [work?, parts?, Option.map_some, exceptMap_map, whole_map, whole_onCollection, whole_once]
  | execute q => simp only [work?, parts?, Option.map_some, exceptMap_map, whole_map, whole_query]
  | close => simp only [work?, parts?, Option.map_some, Except.map, whole_map, whole_once]
  | listen event handler => rfl
  | unlisten event handler => rfl

/-- A call that is a job, in parts. -/
def Job.ofCall (c : Call) (parts : Except Failure (Nat → Routine Engine Account)) (h : c.parts? = some parts) :
    Job where
  call := c
  work := parts
  divides := by rw [Call.work?_eq_parts?, h, Option.map_some]

end Session
end RecordStore
