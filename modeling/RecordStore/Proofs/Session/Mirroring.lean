import RecordStore.Proofs.Registry.Entries
import RecordStore.Proofs.Session.Locality

/-!
Hubs that mirror each other. Two hubs in which some connections are the same, with the stores at their paths,
give the same answers to whatever is asked of sessions on these connections, one call after another or at the
same time, and mirror each other still after that.
-/

namespace RecordStore

open Effect

/-! ### What is asked of sessions -/

/-- A call of a session. -/
inductive Session.Call where
  | add (collection : Value) (args : List Value)
  | update (collection : Value) (args : List Value)
  | remove (collection key : Value)
  | clear (collection : Value)
  | get (collection key : Value)
  | count (collection key : Value)
  | execute (q : Query)
  | close
  | listen (event : Value) (handler : String)
  | unlisten (event : Value) (handler : String)

namespace Session

/-- What a call does; one without a result answers with null. -/
def Call.on (s : Session) : Call → Operation Hub Value
  | add collection args => s.add collection args
  | update collection args => s.update collection args
  | remove collection key => s.remove collection key
  | clear collection => s.clear collection
  | get collection key => s.get collection key
  | count collection key => s.count collection key
  | execute q => s.execute q
  | close => s.close.andThen fun _ => return .null
  | listen event handler => (Operation.ofTask (s.listen event handler)).andThen fun _ => return .null
  | unlisten event handler => (Operation.ofTask (s.unlisten event handler)).andThen fun _ => return .null

/-- What sessions answer to groups of calls. The calls of a group are made at the same time. -/
def converse : List (List (Session × Call)) → Task (List (List (Except Failure Value)))
  | [] => pure []
  | group :: rest => do
    let answers ← Operation.gather (group.map fun asked => asked.2.on asked.1)
    let others ← converse rest
    return answers :: others

end Session

namespace Hub

/-- A relation of hubs that is kept by whatever a session does on a connection. -/
structure IsKeptOn (id : Nat) (M : Hub → Hub → Prop) : Prop where
  connection {h g : Hub} : M h g → g.connection id = h.connection id
  setConnection {h g : Hub} {c : SharedConnection} : M h g → c.db = (h.connection id).db →
    (h.isClosed id = true → c.isClosed = true) → M (h.setConnection id c) (g.setConnection id c)
  log {h g : Hub} {e : LogEvent} : M h g → M { h with log := h.log ++ [e] } { g with log := g.log ++ [e] }
  listening {h g : Hub} {listener : Nat} {handler : String} : M h g →
    M { h with handlers := h.handlers ++ [(listener, handler)] }
      { g with handlers := g.handlers ++ [(listener, handler)] }
  evict {h g : Hub} (registry : Nat) : M h g →
    M ((Task.evict registry id).after h) ((Task.evict registry id).after g)
  engine {h g : Hub} {α : Type} {a : Action α} : M h g →
    a.IsLocal Engine.LeavesHeld (h.connection id).db → ∃ r e d, a h.engine = ending r e ∧
      a g.engine = ending r d ∧ M { h with engine := e } { g with engine := d }

/-- Besides, the relation is kept when the connection is closed in the engine. -/
structure IsKeptByClosing (id : Nat) (M : Hub → Hub → Prop) : Prop extends IsKeptOn id M where
  close {h g : Hub} : M h g → ∃ e d, Action.close (h.connection id).db h.engine = .ok () e ∧
    Action.close (h.connection id).db g.engine = .ok () d ∧ M { h with engine := e } { g with engine := d }

end Hub

/-- Taking a connection out of a registry cannot fail, and changes the registry and the log. -/
theorem Task.evict_run (registry id : Nat) (h : Hub) : ∃ r log, r.entries ⊆ (h.registry registry).entries ∧
    Task.evict registry id h = .ok () { h.setRegistry registry r with log := log } := by
  have hkept := Registry.entries_evict_subset (h.registry registry)
    ⟨(h.connection id).name, .int (h.connection id).version⟩ (some id)
  change ∃ r log, _ ∧ (if ((h.registry registry).evict _ _).1 = true then _ else _ : Task Unit) _ = _
  split
  · exact ⟨_, _, hkept, rfl⟩
  · exact ⟨_, h.log, hkept, rfl⟩

theorem Action.exists_close_run (db : Nat) (e : Engine) : ∃ d, Action.close db e = .ok () d := by
  cases hclosed : (e.connection db).isClosed with
  | true => exact ⟨e, close_of_closed hclosed⟩
  | false =>
      obtain ⟨_, _, hclose⟩ := close_of_open hclosed
      exact ⟨_, hclose⟩

/-! ### Batches -/

namespace Batch

variable {α : Type} {M N : Hub → Hub → Prop}

/-- Batches of the same objects over related hubs. -/
def Related (M : Hub → Hub → Prop) (b c : Batch) : Prop := M b.hub c.hub ∧ b.objects = c.objects

theorem agree_answer (overwrite : Bool) (field : String) (keys : List Value) :
    Agree (Related M) Eq (answer overwrite field keys) (answer overwrite field keys) := by
  have hobjects : Agree (Related M) Eq (do return Value.list (← get).objects : Effect Batch Value)
      (do return Value.list (← get).objects) := agree_gets fun _ _ hbc => congrArg Value.list hbc.2
  refine agree_ite (agree_bind_eq (agree_modify fun b c hbc => ⟨hbc.1, ?_⟩) fun _ => hobjects) hobjects
  exact congrArg (List.zipWith (Record.withKey field) keys) hbc.2

/-- An operation that is found by the objects. -/
theorem respects_after {o : List Value → Operation Batch α}
    (ho : ∀ objects, (o objects).Respects (Related M) (Related N)) :
    (Operation.after do return o (← get).objects).Respects (Related M) (Related N) := by
  intro b c hbc
  have hright : (do return o (← get).objects : Effect Batch (Operation Batch α)) c = .ok (o b.objects) c :=
    congrArg (fun objects => EStateM.Result.ok (o objects) c) hbc.2.symm
  exact (ho b.objects b c hbc).congr (bind_of_ok rfl _) (bind_of_ok hright _)

end Batch

/-! ### One rule for each part of a call -/

namespace Session

section Rules

variable {α β : Type} {s : Session} {M : Hub → Hub → Prop} (hM : Hub.IsKeptOn s.connection M)

include hM

theorem agree_connection : Agree M Eq (Task.connection s.connection) (Task.connection s.connection) :=
  agree_gets fun _ _ hM' => (hM.connection hM').symm

theorem agree_ensureOpen : Agree M Eq (Task.ensureOpen s.connection) (Task.ensureOpen s.connection) :=
  agree_bind_eq (agree_connection hM) fun _ => agree_ite (agree_throw _) (agree_pure rfl)

theorem agree_log (e : LogEvent) : Agree M Eq (Task.log e) (Task.log e) :=
  agree_modify fun _ _ => hM.log

/-- A change of the connection that lets it be what it is, but that it may come to be closed. -/
theorem agree_modifyConnection {f : SharedConnection → SharedConnection} (hdb : ∀ c, (f c).db = c.db)
    (hclosed : ∀ c, c.isClosed = true → (f c).isClosed = true) :
    Agree M Eq (Task.modifyConnection s.connection f) (Task.modifyConnection s.connection f) := by
  refine agree_modify fun h g hhg => ?_
  rw [hM.connection hhg]
  exact hM.setConnection hhg (hdb _) (hclosed _)

/-- What goes on with the connection that there is at the time. -/
theorem agree_connection_bind {f : SharedConnection → Task α}
    (hf : ∀ h g, M h g → EndsAlike M Eq (f (h.connection s.connection)) (f (h.connection s.connection)) h g) :
    Agree M Eq (Task.connection s.connection >>= f) (Task.connection s.connection >>= f) := by
  intro h g hhg
  have hright : Task.connection s.connection g = .ok (h.connection s.connection) g :=
    congrArg (EStateM.Result.ok · g) (hM.connection hhg)
  exact (hf h g hhg).congr (bind_of_ok rfl f) (bind_of_ok hright f)

theorem endsAlike_engine {h g : Hub} (hhg : M h g) {a : Action α}
    (ha : a.IsLocal Engine.LeavesHeld (h.connection s.connection).db) :
    EndsAlike M Eq (Task.engine a) (Task.engine a) h g := by
  obtain ⟨r, e, d, he, hd, hdone⟩ := hM.engine hhg ha
  exact endsAlike_of_ending (focus_of_ending he) (focus_of_ending hd) hdone

/-- The work of a job is done on the connection that there is then. -/
theorem agree_guarded {body : Nat → Action α} (hbody : ∀ db, (body db).IsLocal Engine.LeavesHeld db) :
    Agree M Eq (s.guarded body) (s.guarded body) := by
  refine agree_connection_bind hM fun h g hhg =>
    (endsAlike_engine hM hhg (hbody (h.connection s.connection).db)).tryCatch fun f => ?_
  exact agree_ite (agree_bind_eq (agree_log hM _) fun _ => agree_throw _) (agree_throw _)

theorem agree_evict : Agree M Eq (Task.evict s.registry s.connection) (Task.evict s.registry s.connection) := by
  intro h g hhg
  obtain ⟨_, _, _, hh⟩ := Task.evict_run s.registry s.connection h
  obtain ⟨_, _, _, hg⟩ := Task.evict_run s.registry s.connection g
  have hkept := hM.evict s.registry hhg
  rw [Effect.after, hh, Effect.after, hg] at hkept
  exact .ok hh hg rfl hkept

end Rules

/-! ### The calls -/

section Calls

variable {α β : Type} {s : Session} {M N : Hub → Hub → Prop} (hM : Hub.IsKeptOn s.connection M)
  (hN : Hub.IsKeptOn s.connection N)

include hM hN

theorem agree_queue {check : Task Unit} {job : Task α} (hcheck : Agree N Eq check check)
    (hjob : Agree N Eq job job) : Agree M (Turn.Agree N) (s.queue check job) (s.queue check job) := by
  refine agree_bind_eq (agree_connection hM) fun c => ?_
  refine agree_bind_eq (agree_modifyConnection hM (fun _ => rfl) fun _ hc => hc) fun _ => ?_
  refine agree_pure (.waiting (agree_bind_eq (agree_attempt ?_) fun result => ?_))
  -- both hubs say alike whether the job had to wait, and then it checks again
  · exact agree_ite (agree_bind_eq hcheck fun _ => hjob) hjob
  · exact agree_bind_eq (agree_modifyConnection hN (fun _ => rfl) fun _ hc => hc) fun _ =>
      agree_ofExcept result

theorem respects_call {arguments : Except Failure α} {body : α → Nat → Action β}
    (hbody : ∀ a db, (body a db).IsLocal Engine.LeavesHeld db) : (s.call arguments body).Respects M N :=
  agree_bind_eq (agree_ensureOpen hM) fun _ => agree_bind_eq (agree_ofExcept arguments) fun a =>
    agree_queue hM hN (agree_ensureOpen hN) (agree_guarded hN (hbody a))

theorem respects_write (collection : Value) (args : List Value) (overwrite : Bool) :
    (s.write collection args overwrite).Respects M N := by
  have hwrite (records : List Record) : (s.call (.ok records) fun records db =>
      Action.writeRecords db collection records overwrite).Respects M N :=
    respects_call hM hN fun records db => Action.isLocal_writeRecords db collection records overwrite
  have hlift {o : Operation Hub (List Value × String)} (ho : o.Respects M N) :
      (o.lift Batch.onHub).Respects (Batch.Related M) (Batch.Related N) :=
    ho.lift (fun _ _ hbc => hbc.1) (fun _ _ _ _ hbc hhg => ⟨hhg, hbc.2⟩) (fun _ _ hbc => hbc.1)
      fun _ _ _ _ hbc hhg => ⟨hhg, hbc.2⟩
  have hobjects (keys : List Value) :
      (s.writeObjects collection keys overwrite).Respects (Batch.Related M) (Batch.Related N) :=
    Batch.respects_after fun objects => (hlift (hwrite _)).andThen
      (fun x => Batch.agree_answer overwrite x.2 x.1) fun x => Batch.agree_answer overwrite x.2 x.1
  exact (hobjects _).lift (fun _ _ hhg => ⟨hhg, rfl⟩) (fun _ _ _ _ _ hbc => hbc.1) (fun _ _ hhg => ⟨hhg, rfl⟩)
    fun _ _ _ _ _ hbc => hbc.1

theorem respects_remove (collection key : Value) : (s.remove collection key).Respects M N :=
  (respects_call hM hN fun range db => Action.isLocal_onCollection (fun r => r.isUniform_delete range) db
    collection .readwrite).andThen_pure fun _ => key

theorem respects_clear (collection : Value) : (s.clear collection).Respects M N :=
  (respects_call hM hN fun _ db => Action.isLocal_onCollection StoreRef.isUniform_clear db collection
    .readwrite).andThen_pure fun _ => Value.null

theorem respects_get (collection key : Value) : (s.get collection key).Respects M N :=
  respects_call hM hN fun range db => Action.isLocal_onCollection (fun r => r.isUniform_get range) db
    collection .readonly

theorem respects_count (collection key : Value) : (s.count collection key).Respects M N :=
  (respects_call hM hN fun range db => Action.isLocal_onCollection
    (fun r => r.isUniform_count none range) db collection .readonly).andThen_pure fun n : Nat => Value.int n

theorem respects_execute (q : Query) : (s.execute q).Respects M N :=
  (respects_call hM hN fun range db => q.isLocal_run db range).andThen
    (fun _ => agree_bind_eq (agree_log hM _) fun _ => agree_pure rfl) fun _ =>
      agree_bind_eq (agree_log hN _) fun _ => agree_pure rfl

omit hN in
/-- The connection is closed by a job that may rely on the session's being closed. -/
theorem respects_close (hN : Hub.IsKeptByClosing s.connection N) : s.close.Respects M N := by
  refine agree_bind_eq (agree_ensureOpen hM) fun _ => ?_
  refine agree_bind_eq (agree_modifyConnection hM (fun _ => rfl) fun _ _ => rfl) fun _ => ?_
  refine agree_queue hM hN.toIsKeptOn (agree_pure rfl) (agree_connection_bind hN.toIsKeptOn fun h g hhg => ?_)
  obtain ⟨e, d, he, hd, hclosed⟩ := hN.close hhg
  have hengine : EndsAlike N Eq (Task.engine (Action.close (h.connection s.connection).db))
      (Task.engine (Action.close (h.connection s.connection).db)) h g :=
    endsAlike_of_ending (focus_of_ending (r := .ok ()) he) (focus_of_ending (r := .ok ()) hd) hclosed
  exact hengine.bind fun _ _ _ => agree_bind_eq (agree_evict hN.toIsKeptOn) fun _ => agree_log hN.toIsKeptOn _

omit hN in
theorem agree_listen (event : Value) (handler : String) :
    Agree M Eq (s.listen event handler) (s.listen event handler) := by
  refine agree_bind_eq (agree_ofExcept _) fun type => agree_bind_eq (agree_ensureOpen hM) fun _ => ?_
  refine agree_connection_bind hM fun h g hhg => ?_
  split
  · obtain ⟨r, e, d, he, hd, hdone⟩ := hM.engine hhg
      (Action.isLocal_addListener (h.connection s.connection).db event)
    cases r with
    | error f =>
        exact .error (bind_of_error (focus_of_ending (r := .error f) he) _)
          (bind_of_error (focus_of_ending (r := .error f) hd) _) hdone
    | ok listener =>
        refine .ok (bind_of_ok (focus_of_ending (r := .ok listener) he) _)
          (bind_of_ok (focus_of_ending (r := .ok listener) hd) _) rfl ?_
        exact hM.listening (hM.setConnection hdone rfl id)
  · exact .ok rfl rfl rfl hhg

omit hN in
theorem agree_unlisten (event : Value) (handler : String) :
    Agree M Eq (s.unlisten event handler) (s.unlisten event handler) := by
  refine agree_bind_eq (agree_ofExcept _) fun type => agree_connection_bind hM fun h g hhg => ?_
  cases (h.connection s.connection).subscriptions.find? fun x => x.type = type && x.handler == handler with
  | none => exact .ok rfl rfl rfl hhg
  | some found =>
      obtain ⟨r, e, d, he, hd, hdone⟩ := hM.engine hhg
        (Action.isLocal_removeListener (h.connection s.connection).db event found.listener)
      cases r with
      | error f =>
          exact .error (bind_of_error (focus_of_ending (r := .error f) he) _)
            (bind_of_error (focus_of_ending (r := .error f) hd) _) hdone
      | ok x =>
          refine .ok (bind_of_ok (focus_of_ending (r := .ok x) he) _)
            (bind_of_ok (focus_of_ending (r := .ok x) hd) _) rfl ?_
          exact hM.setConnection hdone rfl id

theorem respects_on (c : Call) (hclose : c = .close → Hub.IsKeptByClosing s.connection N) :
    (c.on s).Respects M N := by
  cases c with
  | add collection args => exact respects_write hM hN collection args false
  | update collection args => exact respects_write hM hN collection args true
  | remove collection key => exact respects_remove hM hN collection key
  | clear collection => exact respects_clear hM hN collection
  | get collection key => exact respects_get hM hN collection key
  | count collection key => exact respects_count hM hN collection key
  | execute q => exact respects_execute hM hN q
  | close => exact (respects_close hM (hclose rfl)).andThen_pure fun _ => Value.null
  | listen event handler => exact (Operation.respects_ofTask (agree_listen hM event handler)).andThen_pure _
  | unlisten event handler => exact (Operation.respects_ofTask (agree_unlisten hM event handler)).andThen_pure _

end Calls

end Session

/-! ### Mirroring -/

namespace Hub

variable {h g : Hub} {id : Nat} {c : SharedConnection}

theorem connection_setConnection (h : Hub) (id : Nat) (c : SharedConnection) (other : Nat) :
    (h.setConnection id c).connection other = h.connection other ∨
      other = id ∧ (h.setConnection id c).connection other = c := by
  rw [connection, connection, setConnection, List.getElem?_set]
  split
  · next heq =>
    split
    · exact .inr ⟨heq.symm, rfl⟩
    · next hle =>
      rw [← heq, List.getElem?_eq_none (Nat.le_of_not_lt hle)]
      exact .inl rfl
  · exact .inl rfl

theorem connection_setConnection_of_ne {other : Nat} (hne : other ≠ id) :
    (h.setConnection id c).connection other = h.connection other :=
  (connection_setConnection h id c other).resolve_right fun heq => hne heq.1

theorem connection_setConnection_of_lt (hlt : id < h.connections.length) (c : SharedConnection) :
    (h.setConnection id c).connection id = c := by
  rw [connection, setConnection, List.getElem?_set_self hlt]
  rfl

/-- What a connection that is replaced has in common with the new one, it keeps. -/
theorem connection_setConnection_congr {α : Type} (f : SharedConnection → α) (hf : f c = f (h.connection id))
    (other : Nat) : f ((h.setConnection id c).connection other) = f (h.connection other) := by
  rcases connection_setConnection h id c other with heq | ⟨rfl, heq⟩
  · rw [heq]
  · rw [heq, hf]

/-- Some connections are the same in two hubs, in the engine too, and so are the stores at their paths. -/
structure Mirrors (A : Nat → Prop) (h g : Hub) : Prop where
  atRest : h.engine.IsAtRest
  atRest' : g.engine.IsAtRest
  made : ∀ id, A id → id < h.connections.length
  made' : ∀ id, A id → id < g.connections.length
  connection : ∀ id, A id → g.connection id = h.connection id
  engine : ∀ id, A id → h.engine.AlikeAt (h.connection id).db g.engine

namespace Mirrors

variable {A : Nat → Prop} (hM : h.Mirrors A g)

include hM

/-- Only the connections and the engine count. -/
theorem congr {h' g' : Hub} (hc : h'.connections = h.connections) (he : h'.engine = h.engine)
    (hc' : g'.connections = g.connections) (he' : g'.engine = g.engine) : h'.Mirrors A g' := by
  have hconnection (id : Nat) : h'.connection id = h.connection id := by rw [Hub.connection, hc]; rfl
  have hconnection' (id : Nat) : g'.connection id = g.connection id := by rw [Hub.connection, hc']; rfl
  constructor
  · exact he ▸ hM.atRest
  · exact he' ▸ hM.atRest'
  · exact fun id hA => hc ▸ hM.made id hA
  · exact fun id hA => hc' ▸ hM.made' id hA
  · intro id hA
    rw [hconnection, hconnection', hM.connection id hA]
  · intro id hA
    rw [he, he', hconnection]
    exact hM.engine id hA

theorem setConnection (hA : A id) (hdb : c.db = (h.connection id).db) :
    (h.setConnection id c).Mirrors A (g.setConnection id c) where
  atRest := hM.atRest
  atRest' := hM.atRest'
  made other hother := Nat.lt_of_lt_of_eq (hM.made other hother) List.length_set.symm
  made' other hother := Nat.lt_of_lt_of_eq (hM.made' other hother) List.length_set.symm
  connection other hother := by
    by_cases heq : other = id
    · subst heq
      rw [connection_setConnection_of_lt (hM.made other hA), connection_setConnection_of_lt (hM.made' other hA)]
    · rw [connection_setConnection_of_ne heq, connection_setConnection_of_ne heq, hM.connection other hother]
  engine other hother := by
    rw [connection_setConnection_congr SharedConnection.db hdb]
    exact hM.engine other hother

/-- What is done on one of the connections, in both engines alike, leaves the others the same. -/
theorem withEngine (hA : A id) {e d : Engine} (he : h.engine.LeavesOthers (h.connection id).db e)
    (hd : g.engine.LeavesOthers (h.connection id).db d) (halike : e.AlikeAt (h.connection id).db d) :
    Mirrors A { h with engine := e } { g with engine := d } where
  atRest := he.atRest
  atRest' := hd.atRest
  made := hM.made
  made' := hM.made'
  connection := hM.connection
  engine other hother := by
    have hown := hM.engine id hA
    have hwas := hM.engine other hother
    by_cases hdb : (h.connection other).db = (h.connection id).db
    · change e.AlikeAt (h.connection other).db d
      rw [hdb]
      exact halike
    · have hleft := he.others _ hdb
      refine ⟨he.made ▸ hwas.made, hd.made ▸ hwas.made', ?_, ?_, halike.listenerCount⟩
      · exact (hd.others _ hdb).trans (hwas.connection.trans hleft.symm)
      · -- another connection may be to the same path
        change d.store (e.connection (h.connection other).db).path = e.store (e.connection (h.connection other).db).path
        rw [hleft]
        by_cases hpath : (h.engine.connection (h.connection other).db).path =
            (h.engine.connection (h.connection id).db).path
        · rw [hpath, ← he.path]
          exact halike.store
        · rw [he.stores _ hpath, hd.stores _ (by rw [hown.connection]; exact hpath)]
          exact hwas.store

end Mirrors

theorem isKeptByClosing_mirrors {A : Nat → Prop} (hA : A id) : IsKeptByClosing id (Mirrors A) where
  connection hM := hM.connection id hA
  setConnection hM hdb _ := hM.setConnection hA hdb
  log hM := hM.congr rfl rfl rfl rfl
  listening hM := hM.congr rfl rfl rfl rfl
  evict {h g} registry hM := by
    obtain ⟨_, _, _, hh⟩ := Task.evict_run registry id h
    obtain ⟨_, _, _, hg⟩ := Task.evict_run registry id g
    rw [Effect.after, hh, Effect.after, hg]
    exact hM.congr rfl rfl rfl rfl
  engine hM ha := by
    obtain ⟨r, e, d, he, hd, hleft, hright, halike⟩ := ha _ _ hM.atRest hM.atRest' (hM.engine id hA)
    exact ⟨r, e, d, he, hd, hM.withEngine hA hleft.toLeavesOthers hright.toLeavesOthers halike⟩
  close hM := by
    obtain ⟨r, e, d, he, hd, hleft, hright, halike⟩ :=
      Action.isLocal_close _ _ _ hM.atRest hM.atRest' (hM.engine id hA)
    obtain ⟨e', hclose⟩ := Action.exists_close_run _ _
    obtain ⟨rfl, rfl⟩ := ending_eq_ok_iff.1 (he.symm.trans hclose)
    exact ⟨_, d, hclose, hd, hM.withEngine hA hleft hright halike⟩

/-- Sessions on the connections answer the same, and go on doing so. -/
theorem agree_converse {A : Nat → Prop} {groups : List (List (Session × Session.Call))}
    (hA : ∀ group ∈ groups, ∀ asked ∈ group, A asked.1.connection) :
    Agree (Mirrors A) Eq (Session.converse groups) (Session.converse groups) := by
  induction groups with
  | nil => exact agree_pure rfl
  | cons group rest ih =>
      obtain ⟨hgroup, hrest⟩ := List.forall_mem_cons.1 hA
      refine agree_bind_eq (Operation.agree_gather fun o ho => ?_) fun answers =>
        agree_bind_eq (ih hrest) fun _ => agree_pure rfl
      obtain ⟨asked, hasked, rfl⟩ := List.mem_map.1 ho
      have hkept := isKeptByClosing_mirrors (hgroup asked hasked)
      exact Session.respects_on hkept.toIsKeptOn hkept.toIsKeptOn asked.2 fun _ => hkept

end Hub
end RecordStore
