import RecordStore.Proofs.Session.Batches
import RecordStore.Proofs.Session.Soundness

/-!
Calls that are jobs. Each call of a session but those for its handlers is one job on its connection: it
refuses a closed connection, and else asks for its turn. When that comes, it does its work in the engine, and
settles how that ended.
-/

namespace RecordStore

open Effect

/-- What the work of a job comes to: the answer to the caller, and what is logged besides. -/
abbrev Account := Value × List LogEvent

theorem Hub.connection_released {h : Hub} {id : Nat} (hlt : id < h.connections.length) :
    (h.released id).connection id = { h.connection id with jobs := (h.connection id).jobs - 1 } :=
  connection_setConnection_of_lt hlt _

namespace Session

/-! ### How jobs end -/

/-- Logs what a job has to log, and answers. -/
def tell (account : Account) : Task Value := do
  modify fun h => { h with log := h.log ++ account.2 }
  return account.1

/-- Ends a job of which the work is over: how it failed is noted and passed on, and the connection is given
back. -/
def settle (s : Session) (r : Except Failure Account) : Task Value := do
  modify fun h => (h.noted (h.connection s.connection) r).released s.connection
  let account ← ofExcept (r.mapError Failure.outward)
  tell account

/-- Ends closing, of which the work is over: nobody is to find the connection any more. -/
def settleClosing (s : Session) (r : Except Failure Account) : Task Value := do
  let result ← attempt do
    let _ ← ofExcept r
    let c ← Task.connection s.connection
    Task.evict s.registry s.connection
    Task.log (.sessionClosed c.name c.version)
  modify fun h => h.released s.connection
  ofExcept result
  return .null

namespace Call

/-- Closing is a job of its own kind. -/
def closes : Call → Bool
  | close => true
  | _ => false

/-- What a batch answers, of which the keys are made, with the field that they are written back to. -/
def handBack (args : List Value) (overwrite : Bool) (made : List Value × String) : Value :=
  .list (Batch.answered overwrite made.2 made.1 ((Record.ofArguments args).map Record.value))

/-- The work of a call that is a job, on a connection of the engine, if the arguments can be resolved. -/
def work? : Call → Option (Except Failure (Nat → Action Account))
  | add collection args => some (.ok fun db => do
      let made ← Action.writeRecords db collection (Record.ofArguments args) false
      return (handBack args false made, []))
  | update collection args => some (.ok fun db => do
      let made ← Action.writeRecords db collection (Record.ofArguments args) true
      return (handBack args true made, []))
  | remove collection key => some ((resolve key).map fun range db => do
      Action.onCollection db collection .readwrite fun r => r.delete range
      return (key, []))
  | clear collection => some (.ok fun db => do
      Action.onCollection db collection .readwrite StoreRef.clear
      return (.null, []))
  | get collection key => some ((resolve key).map fun range db => do
      let v ← Action.onCollection db collection .readonly fun r => r.get range
      return (v, []))
  | count collection key =>
    some ((if key.isNull then .ok .null else resolve key).map fun range db => do
      let n ← Action.onCollection db collection .readonly fun r => r.count none range
      return (.int n, []))
  | execute q => some ((resolve q.range).map fun range db => do
      let result ← q.run db range
      return (result.value, [.queryExecuted q.collection q.index q.state.name result.size]))
  | close => some (.ok fun db => do
      Action.close db
      return (.null, []))
  | listen _ _ => none
  | unlisten _ _ => none

/-- Ends a job of which the work is over. -/
def settle (c : Call) (s : Session) : Except Failure Account → Task Value :=
  if c.closes = true then s.settleClosing else s.settle

/-- A hub of which a call has asked for its turn. -/
def asked (c : Call) (s : Session) (h : Hub) : Hub :=
  (if c.closes = true then h.marked s.connection else h).queued s.connection

end Call

/-- What a call that is a job answers once its work is over. -/
def Call.answered (c : Call) (r : Except Failure Account) : Except Failure Value :=
  if c.closes = true then r.map fun _ => .null else (r.mapError Failure.outward).map Prod.fst

variable {s : Session} {c : Call} {h g : Hub} {r : Except Failure Account}

/-! ### What the end of a job does to the hub -/

/-- The hub but for its log and its registries: the engine, and the connections that sessions share. -/
structure SameConnections (h g : Hub) : Prop where
  engine : g.engine = h.engine
  connections : g.connections = h.connections

theorem SameConnections.connection (hsame : SameConnections h g) (id : Nat) :
    g.connection id = h.connection id := by
  rw [Hub.connection, hsame.connections]
  rfl

theorem settle_run (s : Session) (r : Except Failure Account) (h : Hub) :
    ∃ h', s.settle r h = ending ((r.mapError Failure.outward).map Prod.fst) h' ∧
      SameConnections (h.released s.connection) h' := by
  cases r with
  | ok account => exact ⟨_, rfl, rfl, rfl⟩
  | error f =>
      obtain ⟨log, hnoted⟩ := (h.released s.connection).noted_eq (h.connection s.connection)
        (.error f : Except Failure Account)
      refine ⟨_, rfl, ?_⟩
      beta_reduce
      rw [Hub.released_noted, hnoted]
      exact ⟨rfl, rfl⟩

/-- Whatever closing does besides its work, it gives the connection back. -/
theorem settleClosing_of_ending {account : Account} {h' : Hub} (hshut : (do
      let c ← Task.connection s.connection
      Task.evict s.registry s.connection
      Task.log (.sessionClosed c.name c.version) : Task Unit) h = .ok () h') :
    s.settleClosing (.ok account) h = .ok .null (h'.released s.connection) := by
  have hall : (do
      let _ ← ofExcept (.ok account)
      let c ← Task.connection s.connection
      Task.evict s.registry s.connection
      Task.log (.sessionClosed c.name c.version) : Task Unit) h = ending (.ok ()) h' := hshut
  exact bind_of_ok (attempt_of_ending hall) _

theorem exists_evicted (s : Session) (h : Hub) : ∃ h', (do
      let c ← Task.connection s.connection
      Task.evict s.registry s.connection
      Task.log (.sessionClosed c.name c.version) : Task Unit) h = .ok () h' ∧ SameConnections h h' := by
  obtain ⟨r, log, _, hevict⟩ := Task.evict_run s.registry s.connection h
  exact ⟨_, (bind_of_ok hevict _).trans rfl, rfl, rfl⟩

theorem SameConnections.released (hsame : SameConnections h g) (id : Nat) :
    SameConnections (h.released id) (g.released id) where
  engine := hsame.engine
  connections := by
    rw [Hub.released, Hub.released, Hub.connection, Hub.connection, hsame.connections]
    simp only [Hub.setConnection, hsame.connections]

theorem settleClosing_run (s : Session) (r : Except Failure Account) (h : Hub) :
    ∃ h', s.settleClosing r h = ending (r.map fun _ => .null) h' ∧
      SameConnections (h.released s.connection) h' := by
  cases r with
  | error f => exact ⟨_, rfl, rfl, rfl⟩
  | ok account =>
      obtain ⟨h', hshut, hsame⟩ := s.exists_evicted h
      exact ⟨_, settleClosing_of_ending hshut, hsame.released _⟩

/-- The end of a job gives the connection back, and leaves the engine alone. -/
theorem Call.settle_run (c : Call) (s : Session) (r : Except Failure Account) (h : Hub) :
    ∃ h', c.settle s r h = ending (c.answered r) h' ∧ SameConnections (h.released s.connection) h' := by
  unfold settle answered
  split
  · exact s.settleClosing_run r h
  · exact s.settle_run r h

/-! ### When the turn of a job comes -/

/-- What is left to do of a call that asked for its turn: who had to wait is refused a connection that is
closed, unless it is to close it; else the work is done, and settled. -/
structure Call.IsTurn (c : Call) (s : Session) (hasWaited : Bool) (work : Nat → Action Account)
    (job : Task Value) : Prop where
  refused : ∀ g : Hub, hasWaited = true → c.closes = false → g.isClosed s.connection = true →
    job g = .error .sessionClosed (g.released s.connection)
  done : ∀ (g : Hub) r e, (hasWaited = true → c.closes = false → g.isClosed s.connection = false) →
    work (g.connection s.connection).db g.engine = ending r e → job g = c.settle s r { g with engine := e }

/-- A call is a job with some work. A closed connection is refused at once, and arguments that cannot be
resolved are. Else the call asks for its turn. -/
structure Call.IsJob (c : Call) (s : Session) (work : Except Failure (Nat → Action Account)) : Prop where
  closed : ∀ h : Hub, h.isClosed s.connection = true → (c.on s).enter h = .error .sessionClosed h
  unresolved : ∀ (h : Hub) f, h.isClosed s.connection = false → work = .error f → (c.on s).enter h = .error f h
  asks : ∀ (h : Hub) f, h.isClosed s.connection = false → work = .ok f → ∃ job,
    (c.on s).enter h = .ok (.waiting job) (c.asked s h) ∧
      c.IsTurn s (!decide ((h.connection s.connection).jobs = 0)) f job

section Jobs

variable {α β : Type}

/-- The turn of a call that tells what came of it. -/
theorem Call.isTurn_of_inTurn (hcloses : c.closes = false) (a : α) (body : α → Nat → Action β)
    (account : β → Account) (hasWaited : Bool) :
    c.IsTurn s hasWaited (fun db => do return account (← body a db))
      (s.inTurn hasWaited (Task.ensureOpen s.connection) (s.guarded (body a)) >>= fun x => tell (account x)) where
  refused g hwaited _ hclosed := by
    subst hwaited
    exact bind_of_error (inTurn_of_closed hclosed _) _
  done g r e hpassed hwork := by
    obtain ⟨r', hbody⟩ := exists_ending (body a (g.connection s.connection).db) g.engine
    have hjob := inTurn_of_passed (fun hwaited => hpassed hwaited hcloses) (guarded_run hbody)
    unfold settle
    rw [hcloses, if_neg Bool.false_ne_true]
    obtain ⟨rfl, rfl⟩ := ending_inj ((return_of_ending hbody account).symm.trans hwork)
    cases r' with
    | ok x => exact bind_of_ok hjob _
    | error f => exact bind_of_error hjob _

/-- A call that tells what came of it is a job. -/
theorem Call.isJob_of_call (hcloses : c.closes = false) (arguments : Except Failure α)
    (body : α → Nat → Action β) (account : β → Account)
    (hon : c.on s = (s.call arguments body).andThen fun x => tell (account x)) :
    c.IsJob s (arguments.map fun a db => do return account (← body a db)) where
  closed h hclosed := by
    rw [hon]
    exact Operation.andThen_of_error (call_of_closed hclosed _ _)
  unresolved h f hopen hf := by
    rw [hon]
    cases arguments with
    | ok a => cases hf
    | error g =>
        cases hf
        exact Operation.andThen_of_error (call_of_unresolved hopen _ _)
  asks h f hopen hf := by
    rw [hon]
    cases arguments with
    | error g => cases hf
    | ok a =>
        cases hf
        have hasked : c.asked s h = h.queued s.connection := by
          rw [asked, hcloses, if_neg Bool.false_ne_true]
        rw [hasked]
        exact ⟨_, Operation.andThen_of_waiting (call_enter_of_open hopen a body), isTurn_of_inTurn hcloses _ _ _ _⟩

end Jobs

/-- Closing is a job. -/
theorem Call.isJob_close : close.IsJob s (.ok fun db => do
    Action.close db
    return (.null, [])) where
  closed h hclosed := by
    have hrefused : Task.ensureOpen s.connection h = .error .sessionClosed h := by
      rw [Task.ensureOpen_run, if_pos hclosed]
    exact Operation.andThen_of_error (bind_of_error hrefused _)
  unresolved _ _ _ hf := nomatch hf
  asks h f hopen hf := by
    cases hf
    refine ⟨_, Operation.andThen_of_waiting (close_enter_of_open hopen), fun _ _ hcloses => (nomatch hcloses), ?_⟩
    intro g r e _ hwork
    obtain ⟨e', hclose⟩ := Action.exists_close_run (g.connection s.connection).db g.engine
    have hworked : (do
        Action.close (g.connection s.connection).db
        return (.null, []) : Action Account) g.engine = ending (.ok (.null, [])) e' := bind_of_ok hclose _
    obtain ⟨rfl, rfl⟩ := ending_inj (hworked.symm.trans hwork)
    obtain ⟨k, hevicted, _⟩ := s.exists_evicted { g with engine := e' }
    have hengine : Task.engine (Action.close (g.connection s.connection).db) g = .ok () { g with engine := e' } :=
      focus_of_ending (r := .ok ()) hclose
    have hshut : s.shut g = ending (.ok ()) k := (bind_of_ok hengine _).trans hevicted
    exact (bind_of_ok (inTurn_unchecked hshut) _).trans (settleClosing_of_ending hevicted).symm

theorem tell_nil (v : Value) : tell (v, []) = pure v := by
  funext h
  change EStateM.Result.ok v { h with log := h.log ++ [] } = .ok v h
  rw [List.append_nil]

theorem write_eq_tell (collection : Value) (args : List Value) (overwrite : Bool) :
    s.write collection args overwrite = (s.call (.ok (Record.ofArguments args)) fun records db =>
      Action.writeRecords db collection records overwrite).andThen fun made =>
        tell (Call.handBack args overwrite made, []) := by
  simp only [tell_nil]
  exact write_eq s collection args overwrite

/-- Each call that has work is a job with it. -/
theorem Call.isJob_of_work? {work : Except Failure (Nat → Action Account)} (s : Session) (c : Call)
    (hwork : c.work? = some work) : c.IsJob s work := by
  cases c with
  | add collection args =>
      cases hwork
      refine isJob_of_call rfl (.ok (Record.ofArguments args)) (fun records db =>
        Action.writeRecords db collection records false) (fun made => (handBack args false made, [])) ?_
      exact write_eq_tell collection args false
  | update collection args =>
      cases hwork
      refine isJob_of_call rfl (.ok (Record.ofArguments args)) (fun records db =>
        Action.writeRecords db collection records true) (fun made => (handBack args true made, [])) ?_
      exact write_eq_tell collection args true
  | remove collection key =>
      cases hwork
      refine isJob_of_call rfl (resolve key) (fun range db =>
        Action.onCollection db collection .readwrite fun r => r.delete range) (fun _ => (key, [])) ?_
      simp only [tell_nil]
      rfl
  | clear collection =>
      cases hwork
      refine isJob_of_call rfl (.ok ()) (fun _ db =>
        Action.onCollection db collection .readwrite StoreRef.clear) (fun _ => (.null, [])) ?_
      simp only [tell_nil]
      rfl
  | get collection key =>
      cases hwork
      refine isJob_of_call rfl (resolve key) (fun range db =>
        Action.onCollection db collection .readonly fun r => r.get range) (fun v => (v, [])) ?_
      simp only [tell_nil]
      exact (Operation.andThen_pure _).symm
  | count collection key =>
      cases hwork
      refine isJob_of_call (c := .count collection key) rfl (if key.isNull then .ok .null else resolve key)
        (fun range db => Action.onCollection db collection .readonly fun r => r.count none range) (fun n : Nat => (.int n, [])) ?_
      simp only [tell_nil]
      rfl
  | execute q =>
      cases hwork
      refine isJob_of_call rfl (resolve q.range) (fun range db => q.run db range) (fun result =>
        (result.value, [.queryExecuted q.collection q.index q.state.name result.size])) ?_
      rfl
  | close =>
      cases hwork
      exact isJob_close
  | listen event handler => cases hwork
  | unlisten event handler => cases hwork

/-! ### Jobs alone -/

section Alone

variable {work : Nat → Action Account} {e : Engine}

theorem Call.engine_asked (c : Call) (s : Session) (h : Hub) : (c.asked s h).engine = h.engine := by
  unfold asked
  split
  · rfl
  · rfl

theorem Call.length_asked (c : Call) (s : Session) (h : Hub) :
    (c.asked s h).connections.length = h.connections.length := by
  unfold asked
  split
  · exact List.length_set.trans List.length_set
  · exact List.length_set

/-- Whoever asked for a turn has one job more on the connection, which counts as closed if that is to be
closed. -/
theorem Call.connection_asked (c : Call) (hopen : h.isClosed s.connection = false) :
    (c.asked s h).connection s.connection = { h.connection s.connection with
      isClosed := c.closes
      jobs := (h.connection s.connection).jobs + 1 } := by
  have hlt := Hub.lt_of_isClosed hopen
  unfold asked
  split
  · next hcloses =>
    have hmarked := Hub.connection_marked hlt
    rw [Hub.queued, Hub.connection_setConnection_of_lt (Nat.lt_of_lt_of_eq hlt List.length_set.symm), hmarked,
      hcloses]
  · next hcloses =>
    rw [Hub.connection_queued hopen, Bool.eq_false_iff.2 hcloses, ← hopen]
    rfl

/-- A call whose turn comes at once does its work, and settles how that ended. -/
theorem Call.run_of_open (hwork : c.work? = some (.ok work)) (hopen : h.isClosed s.connection = false)
    (hr : work (h.connection s.connection).db h.engine = ending r e) :
    ∃ h', (c.on s).run h = ending (c.answered r) h' ∧ h'.engine = e ∧
      h'.connection s.connection = { h.connection s.connection with isClosed := c.closes } := by
  obtain ⟨job, henter, _, hdone⟩ := (isJob_of_work? s c hwork).asks h work hopen rfl
  have hconnection := c.connection_asked hopen
  have hpassed : c.closes = false → (c.asked s h).isClosed s.connection = false := fun hcloses => by
    rw [Hub.isClosed, hconnection, hcloses]
  have hjob := hdone (c.asked s h) r e (fun _ => hpassed) (by rw [hconnection, c.engine_asked]; exact hr)
  obtain ⟨h', hsettle, hsame⟩ := c.settle_run s r { c.asked s h with engine := e }
  refine ⟨h', (bind_of_ok henter _).trans (hjob.trans hsettle), hsame.engine, ?_⟩
  have hlt : s.connection < (c.asked s h).connections.length := by
    rw [c.length_asked]
    exact Hub.lt_of_isClosed hopen
  have hasked : ({ c.asked s h with engine := e } : Hub).connection s.connection = _ := hconnection
  rw [hsame.connection, Hub.connection_released (h := { c.asked s h with engine := e }) hlt, hasked]
  rfl

theorem leaves_connection_of_return {β : Type} {body : Action β} {f : β → Account} {db : Nat} {d : Engine}
    (hbody : ∀ r, body e = ending r d → d.IsAtRest ∧ d.connection db = e.connection db)
    (hr : (do return f (← body)) e = ending r d) : d.IsAtRest ∧ d.connection db = e.connection db := by
  obtain ⟨r', hr'⟩ := exists_ending body e
  obtain ⟨rfl, rfl⟩ := ending_inj ((return_of_ending hr' f).symm.trans hr)
  exact hbody r' hr'

/-- The work of a job on an engine at rest leaves the engine at rest, with the connection as it was, unless the
job is to close it. -/
theorem Call.leaves_connection_of_work (hwork : c.work? = some (.ok work)) (hcloses : c.closes = false) {db : Nat}
    (he : e.IsAtRest) {d : Engine} (hr : work db e = ending r d) :
    d.IsAtRest ∧ d.connection db = e.connection db := by
  have hcollection {β : Type} {collection : Value} {mode : Mode} {body : StoreRef → Action β} {f : β → Account}
      (hbody : ∀ q : StoreRef, Action.IsUniform fun tx => body (q.over tx))
      (hr : (do return f (← Action.onCollection db collection mode body)) e = ending r d) :
      d.IsAtRest ∧ d.connection db = e.connection db :=
    leaves_connection_of_return (fun _ h => Action.leaves_connection_of_onCollection hbody he h) hr
  cases c with
  | add collection args =>
      cases hwork
      exact hcollection (fun q => Action.isUniform_writeEach_bind q false _) hr
  | update collection args =>
      cases hwork
      exact hcollection (fun q => Action.isUniform_writeEach_bind q true _) hr
  | remove collection key =>
      obtain ⟨range, _, rfl⟩ := map_eq_ok_iff.1 (Option.some.inj hwork)
      exact hcollection (fun q => q.isUniform_delete range) hr
  | clear collection =>
      cases hwork
      exact hcollection StoreRef.isUniform_clear hr
  | get collection key =>
      obtain ⟨range, _, rfl⟩ := map_eq_ok_iff.1 (Option.some.inj hwork)
      exact hcollection (fun q => q.isUniform_get range) hr
  | count collection key =>
      obtain ⟨range, _, rfl⟩ := map_eq_ok_iff.1 (Option.some.inj hwork)
      exact hcollection (fun q => q.isUniform_count none range) hr
  | execute q =>
      obtain ⟨range, _, rfl⟩ := map_eq_ok_iff.1 (Option.some.inj hwork)
      exact leaves_connection_of_return (fun _ h =>
        Action.leaves_connection_of_transact (q.isUniform_scan range) he h) hr
  | close => cases hcloses
  | listen event handler => cases hwork
  | unlisten event handler => cases hwork

theorem Call.exists_work_of_closes (hcloses : c.closes = true) : ∃ work, c.work? = some (.ok work) := by
  cases c with
  | close => exact ⟨_, rfl⟩
  | _ => cases hcloses

/-- The work of a job that is to close its connection closes it, which always succeeds. -/
theorem Call.close_of_work (hwork : c.work? = some (.ok work)) (hcloses : c.closes = true) {db : Nat} {d : Engine}
    (hr : work db e = ending r d) : Action.close db e = .ok () d ∧ c.answered r = .ok .null := by
  cases c with
  | close =>
      cases hwork
      obtain ⟨d', hclose⟩ := Action.exists_close_run db e
      have hclosed : (do
          Action.close db
          return (.null, []) : Action Account) e = ending (.ok (.null, [])) d' := bind_of_ok hclose _
      obtain ⟨rfl, rfl⟩ := ending_inj (hclosed.symm.trans hr)
      exact ⟨hclose, rfl⟩
  | _ => cases hcloses

/-- The work of a job on an engine at rest leaves the engine at rest. -/
theorem Call.isAtRest_of_work (hwork : c.work? = some (.ok work)) {db : Nat} (he : e.IsAtRest) {d : Engine}
    (hr : work db e = ending r d) : d.IsAtRest := by
  cases hcloses : c.closes with
  | false => exact (leaves_connection_of_work hwork hcloses he hr).1
  | true => exact Action.isAtRest_of_close (r := .ok ()) he (close_of_work hwork hcloses hr).1

/-- The work of a job on an open connection leaves it closed if the job is to close it, and else open. -/
theorem Call.isClosed_of_work (hwork : c.work? = some (.ok work)) {db : Nat} (he : e.IsAtRest)
    (hopen : (e.connection db).isClosed = false) {d : Engine} (hr : work db e = ending r d) :
    (d.connection db).isClosed = c.closes := by
  cases hcloses : c.closes with
  | false => rw [(leaves_connection_of_work hwork hcloses he hr).2, hopen]
  | true => exact Action.isClosed_of_close (r := .ok ()) (close_of_work hwork hcloses hr).1

end Alone

end Session
end RecordStore
