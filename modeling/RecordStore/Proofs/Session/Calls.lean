import RecordStore.Proofs.Effect
import RecordStore.Session.Operations

/-!
Calls of sessions. A call refuses a closed session and does nothing; else it waits for its turn with one
job. The job refuses a connection that was closed while it waited; else all that it does in the engine is
one action, whose failure it passes on.
-/

namespace RecordStore

open Effect

namespace Effect

variable {σ τ α : Type} {part : σ → τ} {put : τ → σ → σ} {a : Effect τ α} {s : σ} {t : τ}

theorem focus_of_ending {r : Except Failure α} (h : a (part s) = ending r t) :
    focus part put a s = ending r (put t s) := by
  unfold focus
  rw [h]
  cases r with
  | ok x => rfl
  | error f => rfl

end Effect

/-! ### Operations on a part of a state -/

namespace Operation

variable {σ τ α β : Type} {o : Operation τ α} {s : σ} {t : τ} {f : Failure} {job : Effect τ α}

theorem lift_of_error (part : σ → τ) (put : τ → σ → σ) (h : o.enter (part s) = .error f t) :
    (o.lift (focus part put)).enter s = .error f (put t s) :=
  bind_of_error (focus_of_ending (r := .error f) h) _

theorem lift_of_waiting (part : σ → τ) (put : τ → σ → σ)
    (h : o.enter (part s) = .ok (.waiting job) t) :
    (o.lift (focus part put)).enter s = .ok (.waiting (focus part put job)) (put t s) :=
  bind_of_ok (focus_of_ending (r := .ok (Turn.waiting job)) h) _

theorem andThen_of_error {k : α → Effect τ β} {u : τ} (h : o.enter t = .error f u) :
    (o.andThen k).enter t = .error f u :=
  bind_of_error h _

theorem andThen_of_waiting {k : α → Effect τ β} {u : τ} (h : o.enter t = .ok (.waiting job) u) :
    (o.andThen k).enter t = .ok (Turn.waiting (job >>= k)) u :=
  bind_of_ok h _

theorem andThen_of_finished {k : α → Effect τ β} {u : τ} {x : α} (h : o.enter t = .ok (.finished x) u) :
    (o.andThen k).enter t = (do return Turn.finished (← k x) : Effect τ (Turn τ β)) u :=
  bind_of_ok h _

/-- An operation whose turn comes at once goes on at once. -/
theorem andThen_run (o : Operation τ α) (k : α → Effect τ β) : (o.andThen k).run = o.run >>= k := by
  funext t
  unfold run
  rw [bind_assoc]
  cases henter : o.enter t with
  | error f u => exact (bind_of_error (andThen_of_error henter) _).trans (bind_of_error henter _).symm
  | ok turn u =>
      refine Eq.trans ?_ (bind_of_ok henter _).symm
      cases turn with
      | waiting job => exact bind_of_ok (andThen_of_waiting henter) _
      | finished x =>
          change ((o.andThen k).enter >>= Turn.finish) t = (pure x >>= k) u
          rw [pure_bind]
          cases hk : k x u with
          | ok y v => exact bind_of_ok ((andThen_of_finished henter).trans (bind_of_ok hk _)) _
          | error f v => exact bind_of_error ((andThen_of_finished henter).trans (bind_of_error hk _)) _

theorem andThen_pure (o : Operation τ α) : o.andThen pure = o := by
  refine congrArg mk (funext fun t => ?_)
  cases henter : o.enter t with
  | error f u => exact andThen_of_error henter
  | ok turn u =>
      cases turn with
      | finished x => exact andThen_of_finished henter
      | waiting job =>
          refine (andThen_of_waiting henter).trans ?_
          rw [bind_pure]

end Operation

/-- A failure as a session passes it on. -/
def Failure.outward (f : Failure) : Failure := if f.isStoreFailure then f.wrap else f

theorem Task.ensureOpen_run (id : Nat) (h : Hub) : ensureOpen id h =
    if h.isClosed id = true then .error .sessionClosed h else .ok () h := by
  unfold ensureOpen
  refine (bind_of_ok (a := connection id) rfl _).trans ?_
  change (if h.isClosed id = true then _ else _ : Task Unit) h = _
  split
  · rfl
  · rfl

namespace Hub

variable {h : Hub} {id : Nat}

/-- The hub once someone more has asked for a connection. -/
def queued (h : Hub) (id : Nat) : Hub :=
  h.setConnection id { h.connection id with jobs := (h.connection id).jobs + 1 }

/-- The hub once someone has given a connection back. -/
def released (h : Hub) (id : Nat) : Hub :=
  h.setConnection id { h.connection id with jobs := (h.connection id).jobs - 1 }

/-- The hub once it is noted how a job on a connection ended: failures of the store are logged. -/
def noted {β : Type} (h : Hub) (c : SharedConnection) : Except Failure β → Hub
  | .ok _ => h
  | .error f =>
    if f.isStoreFailure then { h with log := h.log ++ [.transactionAborted c.name c.version f] } else h

theorem noted_eq {β : Type} (h : Hub) (c : SharedConnection) (r : Except Failure β) :
    ∃ log, h.noted c r = { h with log := log } := by
  cases r with
  | ok x => exact ⟨h.log, rfl⟩
  | error f =>
      by_cases hf : f.isStoreFailure = true
      · exact ⟨_, if_pos hf⟩
      · exact ⟨h.log, if_neg hf⟩

theorem released_noted {β : Type} (h : Hub) (c : SharedConnection) (r : Except Failure β) (id : Nat) :
    (h.noted c r).released id = (h.released id).noted c r := by
  cases r with
  | ok x => rfl
  | error f =>
      change Hub.released (if f.isStoreFailure = true then _ else _) id = if f.isStoreFailure = true then _ else _
      split
      · rfl
      · rfl

theorem lt_of_isClosed (hopen : h.isClosed id = false) : id < h.connections.length := by
  refine Nat.lt_of_not_le fun hge => ?_
  rw [isClosed, connection, List.getElem?_eq_none hge] at hopen
  cases hopen

theorem connection_setConnection_self (hopen : h.isClosed id = false) (c : SharedConnection) :
    (h.setConnection id c).connection id = c := by
  simp [connection, setConnection, lt_of_isClosed hopen]

theorem connection_queued (hopen : h.isClosed id = false) : (h.queued id).connection id =
    { h.connection id with jobs := (h.connection id).jobs + 1 } :=
  connection_setConnection_self hopen _

/-- A job that does something to the engine alone leaves the connection as it was before it was asked. -/
theorem released_queued (hopen : h.isClosed id = false) (e : Engine) :
    ({ h.queued id with engine := e } : Hub).released id = { h with engine := e } := by
  have hlt := lt_of_isClosed hopen
  have hqueued : ({ h.queued id with engine := e } : Hub).connection id =
      { h.connection id with jobs := (h.connection id).jobs + 1 } := connection_queued hopen
  have hself : h.connections.set id (h.connection id) = h.connections := by
    rw [connection, List.getElem?_eq_getElem hlt, Option.getD_some, List.set_getElem_self]
  rw [released, hqueued]
  simp only [setConnection, queued, List.set_set, Nat.add_sub_cancel, hself]

end Hub

namespace Session

variable {α β : Type} {s : Session} {h g : Hub} {a : α} {e : Engine}

/-- What a job of a session does when its turn comes: it is refused, or does one action on the
connection, and passes on how it ends. -/
inductive Performs (s : Session) (body : Nat → Action β) (job : Task β) (g : Hub) : Prop
  | refused {g' : Hub} (hclosed : g.isClosed s.connection = true)
    (hjob : job g = .error .sessionClosed g') (hengine : g'.engine = g.engine)
  | done {r : Except Failure β} {e : Engine} {g' : Hub}
    (haction : body (g.connection s.connection).db g.engine = ending r e)
    (hjob : job g = ending (r.mapError Failure.outward) g') (hengine : g'.engine = e)

theorem guarded_run {body : Nat → Action β} {r : Except Failure β}
    (haction : body (g.connection s.connection).db g.engine = ending r e) : s.guarded body g =
      ending (r.mapError Failure.outward) (Hub.noted { g with engine := e } (g.connection s.connection) r) := by
  have hengine : Task.engine (body (g.connection s.connection).db) g = ending r { g with engine := e } :=
    focus_of_ending haction
  unfold guarded
  rw [bind_of_ok (a := Task.connection s.connection) rfl]
  cases r with
  | ok x => exact tryCatch_of_ok hengine _
  | error f =>
      rw [tryCatch_of_error hengine]
      change (if f.isStoreFailure then _ else _ : Task β) _ =
        ending (.error (if f.isStoreFailure then f.wrap else f)) (if f.isStoreFailure then _ else _)
      split
      · rfl
      · rfl

/-- A closed session is refused at once. -/
theorem call_of_closed (hclosed : h.isClosed s.connection = true) (arguments : Except Failure α)
    (body : α → Nat → Action β) : (s.call arguments body).enter h = .error .sessionClosed h := by
  have hrefused : Task.ensureOpen s.connection h = .error .sessionClosed h := by
    rw [Task.ensureOpen_run, if_pos hclosed]
  exact bind_of_error hrefused _

/-- Arguments that cannot be resolved are refused before the call asks for its turn. -/
theorem call_of_unresolved (hopen : h.isClosed s.connection = false) (f : Failure) (body : α → Nat → Action β) :
    (s.call (.error f) body).enter h = .error f h := by
  have hpassed : Task.ensureOpen s.connection h = .ok () h := by
    rw [Task.ensureOpen_run, if_neg (Bool.eq_false_iff.1 hopen)]
  exact bind_of_ok hpassed _

/-- What a session does with a connection when its turn comes. Who had to wait makes a check first. -/
def inTurn (s : Session) (hasWaited : Bool) (check : Task Unit) (job : Task β) : Task β := do
  let result ← attempt do
    if hasWaited then check
    job
  Task.modifyConnection s.connection fun c => { c with jobs := c.jobs - 1 }
  ofExcept result

theorem queue_run (check : Task Unit) (job : Task β) (h : Hub) : s.queue check job h =
    .ok (.waiting (s.inTurn (!decide ((h.connection s.connection).jobs = 0)) check job))
      (h.queued s.connection) := rfl

/-- The end of a job gives the connection back, however the job ends. -/
theorem inTurn_run {hasWaited : Bool} {check : Task Unit} {job : Task β} {r : Except Failure β} {g' : Hub}
    (h : (do
      if hasWaited then check
      job) g = ending r g') : s.inTurn hasWaited check job g = ending r (g'.released s.connection) := by
  unfold inTurn
  rw [bind_of_ok (attempt_of_ending h)]
  exact ofExcept_run r _

/-- A job that checks nothing is done when its turn comes, whether it had to wait or not. -/
theorem inTurn_unchecked {hasWaited : Bool} {job : Task β} {r : Except Failure β} {g' : Hub}
    (hjob : job g = ending r g') : s.inTurn hasWaited (pure ()) job g = ending r (g'.released s.connection) := by
  refine inTurn_run ?_
  cases hasWaited with
  | false => exact hjob
  | true => exact hjob

/-- A job that had to wait is refused a connection that was closed in the meantime. -/
theorem inTurn_of_closed (hclosed : g.isClosed s.connection = true) (job : Task β) :
    s.inTurn true (Task.ensureOpen s.connection) job g = .error .sessionClosed (g.released s.connection) := by
  have hrefused : Task.ensureOpen s.connection g = .error .sessionClosed g := by
    rw [Task.ensureOpen_run, if_pos hclosed]
  exact inTurn_run (r := .error .sessionClosed) (bind_of_error hrefused _)

/-- Whoever need not wait, or finds the connection open, does the job. -/
theorem inTurn_of_passed {hasWaited : Bool} {job : Task β} {r : Except Failure β} {g' : Hub}
    (hpassed : hasWaited = true → g.isClosed s.connection = false) (hjob : job g = ending r g') :
    s.inTurn hasWaited (Task.ensureOpen s.connection) job g = ending r (g'.released s.connection) := by
  refine inTurn_run ?_
  cases hasWaited with
  | false => exact hjob
  | true =>
      have hopen : Task.ensureOpen s.connection g = .ok () g := by
        rw [Task.ensureOpen_run, if_neg (Bool.eq_false_iff.1 (hpassed rfl))]
      exact (bind_of_ok hopen _).trans hjob

theorem performs_inTurn (body : Nat → Action β) (hasWaited : Bool) :
    s.Performs body (s.inTurn hasWaited (Task.ensureOpen s.connection) (s.guarded body)) g := by
  by_cases hrefused : hasWaited = true ∧ g.isClosed s.connection = true
  · obtain ⟨rfl, hclosed⟩ := hrefused
    exact .refused hclosed (inTurn_of_closed hclosed _) rfl
  · have hpassed : hasWaited = true → g.isClosed s.connection = false := fun hwaited =>
      Bool.eq_false_iff.2 fun hclosed => hrefused ⟨hwaited, hclosed⟩
    obtain ⟨r, hr⟩ := exists_ending (body (g.connection s.connection).db) g.engine
    refine .done hr (inTurn_of_passed hpassed (guarded_run hr)) ?_
    obtain ⟨log, hnoted⟩ := Hub.noted_eq
      { g with engine := (body (g.connection s.connection).db).after g.engine } (g.connection s.connection) r
    rw [hnoted]
    rfl

/-- An open session asks for its turn, and so has one more job on its connection. -/
theorem call_enter_of_open (hopen : h.isClosed s.connection = false) (a : α) (body : α → Nat → Action β) :
    (s.call (.ok a) body).enter h = .ok (.waiting (s.inTurn (!decide ((h.connection s.connection).jobs = 0))
      (Task.ensureOpen s.connection) (s.guarded (body a)))) (h.queued s.connection) := by
  have hpassed : Task.ensureOpen s.connection h = .ok () h := by
    rw [Task.ensureOpen_run, if_neg (Bool.eq_false_iff.1 hopen)]
  exact (bind_of_ok hpassed _).trans (queue_run _ _ h)

theorem call_enter (hopen : h.isClosed s.connection = false) (a : α) (body : α → Nat → Action β) :
    ∃ job, (s.call (.ok a) body).enter h = .ok (.waiting job) (h.queued s.connection) ∧
      ∀ g, s.Performs (body a) job g :=
  ⟨_, call_enter_of_open hopen a body, fun _ => performs_inTurn (body a) _⟩

theorem call_of_open (hopen : h.isClosed s.connection = false) (a : α) (body : α → Nat → Action β) :
    ∃ job h', (s.call (.ok a) body).enter h = .ok (.waiting job) h' ∧ h'.engine = h.engine ∧
      ∀ g, s.Performs (body a) job g := by
  obtain ⟨job, henter, hjob⟩ := call_enter hopen a body
  exact ⟨job, _, henter, rfl, hjob⟩

/-! ### Calls whose turn comes at once -/

/-- A call of an open session whose turn comes at once does its action in the engine. -/
theorem exists_call_turn (hopen : h.isClosed s.connection = false) (body : α → Nat → Action β) {x : β}
    (haction : body a (h.connection s.connection).db h.engine = .ok x e) :
    ∃ job g, (s.call (.ok a) body).enter h = .ok (.waiting job) (h.queued s.connection) ∧
      job (h.queued s.connection) = .ok x g ∧ g.engine = e := by
  obtain ⟨job, henter, hjob⟩ := call_enter hopen a body
  have hqueued := Hub.connection_queued hopen
  cases hjob (h.queued s.connection) with
  | refused hclosed =>
      rw [Hub.isClosed, hqueued] at hclosed
      exact absurd (hopen.symm.trans hclosed) Bool.false_ne_true
  | @done r _ g hdone hjob hengine =>
      rw [hqueued] at hdone
      have hending := haction.symm.trans hdone
      cases r with
      | ok y =>
          cases hending
          exact ⟨job, g, henter, hjob, hengine⟩
      | error f => cases hending

/-- A call of an open session whose turn comes at once does its action in the engine, and nothing else to the
hub but to note how it ended. -/
theorem call_run (hopen : h.isClosed s.connection = false) (body : α → Nat → Action β)
    {r : Except Failure β} (haction : body a (h.connection s.connection).db h.engine = ending r e) :
    (s.call (.ok a) body).run h = ending (r.mapError Failure.outward)
      (Hub.noted { h with engine := e } (h.connection s.connection) r) := by
  have hqueued := Hub.connection_queued hopen
  have hopen' : (h.queued s.connection).isClosed s.connection = false := by
    rw [Hub.isClosed, hqueued]
    exact hopen
  have hguarded := guarded_run (s := s) (g := h.queued s.connection) (by rw [hqueued]; exact haction)
  have hnoted : Hub.noted { h with engine := e } (h.connection s.connection) r =
      (Hub.noted { h.queued s.connection with engine := e }
        ((h.queued s.connection).connection s.connection) r).released s.connection := by
    rw [Hub.released_noted, Hub.released_queued hopen, hqueued]
    rfl
  rw [hnoted]
  exact (bind_of_ok (call_enter_of_open hopen a body) _).trans (inTurn_of_passed (fun _ => hopen') hguarded)

/-- A query of an open session whose turn comes at once yields what it yields in the engine. -/
theorem exists_execute_run (hopen : h.isClosed s.connection = false) {q : Query} {range : Value}
    {result : QueryResult} (hrange : resolve q.range = .ok range)
    (hrun : q.run (h.connection s.connection).db range h.engine = .ok result e) :
    ∃ g, (s.execute q).run h = .ok result.value g ∧ g.engine = e := by
  obtain ⟨job, g, henter, hjob, hengine⟩ := exists_call_turn (s := s) hopen
    (fun range db => q.run db range) hrun
  unfold execute
  rw [hrange]
  refine ⟨{ g with log := g.log ++ [.queryExecuted q.collection q.index q.state.name result.size] },
    (bind_of_ok (Operation.andThen_of_waiting henter) _).trans ?_, hengine⟩
  exact bind_of_ok hjob _

end Session
end RecordStore
