import RecordStore.Proofs.Engine.Locality
import RecordStore.Proofs.Query.Running
import RecordStore.Proofs.Session.Calls

/-!
What sessions do is local. Each job of a session is one action on its connection in the engine, which is told
by the connection and by the store at its path.
-/

namespace RecordStore

open Effect

/-! ### In the engine -/

namespace Action

variable {α : Type} {e d : Engine} {db : Nat}

theorem isUniform_writeEach (r : StoreRef) (overwrite : Bool) (records : List Record) :
    IsUniform fun tx => writeEach (r.over tx) overwrite records := by
  induction records with
  | nil => exact isUniform_pure []
  | cons record rest ih =>
      exact isUniform_bind (r.isUniform_write record.value record.key overwrite) fun key =>
        isUniform_bind ih fun keys => isUniform_pure (key :: keys)

theorem isUniform_writeEach_bind (r : StoreRef) (overwrite : Bool) (records : List Record) : IsUniform fun tx => do
    let keys ← writeEach (r.over tx) overwrite records
    return (keys, Record.keyField (r.over tx).keying) :=
  isUniform_bind (isUniform_writeEach r overwrite records) fun keys => isUniform_pure (keys, Record.keyField r.keying)

theorem isLocal_onCollection {body : StoreRef → Action α}
    (hbody : ∀ r : StoreRef, IsUniform fun tx => body (r.over tx))
    (db : Nat) (collection : Value) (mode : Mode) :
    IsLocal Engine.LeavesHeld db (onCollection db collection mode body) :=
  isLocal_transact (isUniform_openCollection_bind hbody) db collection (.text mode.name)

theorem isLocal_writeRecords (db : Nat) (collection : Value) (records : List Record) (overwrite : Bool) :
    IsLocal Engine.LeavesHeld db (writeRecords db collection records overwrite) :=
  isLocal_onCollection (fun r => isUniform_writeEach_bind r overwrite records) db collection .readwrite

/-- On an engine at rest what is done in a transaction over a collection leaves the engine at rest, and the
connection as it was. -/
theorem leaves_connection_of_onCollection {body : StoreRef → Action α}
    (hbody : ∀ r : StoreRef, IsUniform fun tx => body (r.over tx)) (he : e.IsAtRest) {collection : Value}
    {mode : Mode} {r : Except Failure α} (h : onCollection db collection mode body e = ending r d) :
    d.IsAtRest ∧ d.connection db = e.connection db :=
  leaves_connection_of_transact (isUniform_openCollection_bind hbody) he h

end Action

namespace Query

open Action

variable (q : Query)

theorem isUniform_modify (r : CursorRef) (record : Value) :
    IsUniform fun tx => q.modify (r.over tx) record := by
  unfold modify
  split
  · exact isUniform_pure record
  · exact isUniform_pure record
  · exact isUniform_bind (isUniform_ofExcept _) fun record =>
      isUniform_bind (r.isUniform_update record) fun _ => isUniform_pure record

theorem isUniform_traverse (visits : Nat) (r : CursorRef) (passed : Nat) :
    IsUniform fun tx => q.traverse visits (r.over tx) passed := by
  induction visits generalizing r passed with
  | zero => exact isUniform_throw _
  | succ n ih =>
      have hgoOn (taken : List Value) : IsUniform fun tx => q.goOn n (r.over tx) passed taken :=
        r.isUniform_step_bind (f := fun _ next => do
          let others ← q.traverse n next (passed + taken.length)
          return taken ++ others) fun next => isUniform_bind (ih next (passed + taken.length)) fun others =>
            isUniform_pure (taken ++ others)
      unfold traverse
      simp only [CursorRef.cursor_over]
      refine isUniform_ite (isUniform_pure []) (isUniform_ite ?_ (isUniform_ite (isUniform_pure [])
        (isUniform_bind (isUniform_ofExcept _) fun matched => ?_)))
      · exact r.isUniform_step_bind (f := fun _ next => q.traverse n next q.skip) fun next => ih next q.skip
      · refine isUniform_ite ?_ (hgoOn [])
        exact isUniform_bind (q.isUniform_modify r matched.2) fun record =>
          isUniform_bind (isUniform_ofExcept _) fun v => hgoOn [v]

theorem isUniform_obtainSource (r : StoreRef) : IsUniform fun tx => q.obtainSource (r.over tx) := by
  refine isUniform_ite (isUniform_pure none) ?_
  intro e d db t u
  refine agree_bind (agree_bind_eq (r.isUniform_collection e d db t u) fun c => ?_) (V := fun i j => i.name = j.name)
    fun i j hij => agree_pure (congrArg some hij)
  cases c.index? q.index.display with
  | none => exact agree_throw _
  | some i => exact agree_pure rfl

theorem isUniform_scanSource (r : StoreRef) (query : Value) (source : Option String) :
    IsUniform fun tx => q.scanSource (r.over tx) query source := by
  have hcount : IsUniform fun tx => do return QueryResult.count (← (r.over tx).count source query) :=
    isUniform_bind (r.isUniform_count source query) fun n => isUniform_pure (QueryResult.count n)
  have hscan : IsUniform fun tx => CursorRef.start (r.over tx) source query (.text q.direction.name)
      (q.state == .keys) >>= fun c => (r.over tx).collection >>= fun records =>
        (do return QueryResult.results (← q.traverse ((records.rows source).length + 1 + extraVisits) c 0)) :=
    CursorRef.isUniform_start_bind fun c => isUniform_bind r.isUniform_collection fun records =>
      isUniform_bind (q.isUniform_traverse _ c 0) fun items => isUniform_pure (QueryResult.results items)
  exact isUniform_ite hcount hscan

theorem isUniform_scan (query : Value) : IsUniform fun tx => q.scan tx query := by
  simp only [scan_eq]
  exact isUniform_openCollection_bind fun r => isUniform_bind (q.isUniform_obtainSource r) fun source =>
    q.isUniform_scanSource r query source

theorem isLocal_run (db : Nat) (range : Value) : IsLocal Engine.LeavesHeld db (q.run db range) :=
  isLocal_transact (q.isUniform_scan range) db q.collection _

end Query
end RecordStore
