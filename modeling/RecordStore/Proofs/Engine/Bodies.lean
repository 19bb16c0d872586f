import RecordStore.Proofs.Engine.Changes

/-!
Transactions as a whole. A body runs in a transaction of its own, and makes calls through it of
which each may fail without ending the body. If the body fails nothing of it is kept and the
listeners are told; if it succeeds its changes are kept, all of them. After that the transaction is
over for good.
-/

namespace RecordStore

open Effect

variable {α : Type} {e d : Engine} {tx : Nat}

/-- A store after what calls through a transaction change in it. One that is for reading only changes
nothing. -/
def Store.afterCalls (mode : Mode) (s : Store) (calls : List EngineCall) : Store :=
  if mode = .readonly then s
  else calls.foldl (fun s c => s.changed (c.change? mode s.contents)) s

/-- A body of a transaction: calls whose failures are caught, and then a result of its own. -/
def EngineCall.body : List EngineCall → Except Failure α → Action α
  | [], result => ofExcept result
  | c :: rest, result => do
    let _ ← attempt c.run
    body rest result

theorem EngineCall.body_run (calls : List EngineCall) (result : Except Failure α) (e : Engine) :
    body calls result e = ending result (e.afterCalls calls) := by
  induction calls generalizing e with
  | nil => exact ofExcept_run result e
  | cons c rest ih =>
      obtain ⟨r, hr⟩ := exists_ending c.run e
      rw [body, bind_of_ok (attempt_of_ending hr), ih]
      rfl

/-! ### The calls of a body -/

/-- Calls through a transaction that writes change its draft and nothing else. -/
theorem Engine.afterCalls_of_draft {s : Store} (h : e.draft? tx = some s)
    (hreads : (e.transaction tx).mode ≠ .readonly)
    (hupgrades : (e.transaction tx).mode ≠ .versionchange) {calls : List EngineCall}
    (hcalls : ∀ c ∈ calls, c.through? = some tx) :
    e.afterCalls calls = e.redraft tx (s.afterCalls (e.transaction tx).mode calls) := by
  rw [Store.afterCalls, if_neg hreads]
  induction calls generalizing e s with
  | nil => exact (redraft_self h).symm
  | cons c rest ih =>
      obtain ⟨hc, hrest⟩ := List.forall_mem_cons.1 hcalls
      obtain ⟨scope, hafter, hscope⟩ := (Effect.Meets.after
        ((EngineCall.meets_run_of_draft hc h hreads).imp (fun _ hd => hd) (fun _ _ hd => hd.1)
          fun _ hd => hd) rfl).eq
      rw [hscope hupgrades] at hafter
      have hstep : c.run.after e =
          e.redraft tx (s.changed (c.change? (e.transaction tx).mode s.contents)) :=
        hafter.trans (rescope_self _ _)
      have hnext := ih (e := c.run.after e) (hstep ▸ draft?_redraft h _) (hstep ▸ hreads)
        (hstep ▸ hupgrades) hrest
      change (c.run.after e).afterCalls rest = _
      rw [hnext, hstep, redraft_redraft h]
      rfl

/-- The first read of a transaction that only reads is of what is kept. -/
theorem Action.read_of_unread (h : e.HasUnderWay tx (.reading none)) :
    read tx e = .ok (e.store (e.connection (e.transaction tx).connection).path) (e.rework tx
      (.reading (some (e.store (e.connection (e.transaction tx).connection).path)))) := by
  unfold read
  rw [bind_of_ok (ensureActive_of_hasUnderWay h), bind_of_ok (statement_of_hasUnderWay h)]
  simp only [h.work]
  rfl

/-- Later reads are of what was seen first. -/
theorem Action.read_of_seen {s : Store} (h : e.HasUnderWay tx (.reading (some s))) :
    read tx e = .ok s e := by
  unfold read
  rw [bind_of_ok (ensureActive_of_hasUnderWay h), bind_of_ok (statement_of_hasUnderWay h)]
  simp only [h.work]
  rfl

/-- A read of a transaction that only reads is the first one or changes nothing. -/
theorem Action.read_of_reading {snapshot : Option Store} (h : e.HasUnderWay tx (.reading snapshot)) :
    ∃ s, read tx e = .ok s (e.rework tx (.reading (some s))) := by
  cases snapshot with
  | some s => exact ⟨s, by rw [read_of_seen h, Engine.rework_self h]⟩
  | none => exact ⟨_, read_of_unread h⟩

/-- Calls through a transaction that only reads change nothing but what it has seen. -/
theorem Engine.afterCalls_of_reading {snapshot : Option Store}
    (h : e.HasUnderWay tx (.reading snapshot)) (hmode : (e.transaction tx).mode ≠ .versionchange)
    {calls : List EngineCall} (hcalls : ∀ c ∈ calls, c.through? = some tx) :
    ∃ seen, e.afterCalls calls = e.rework tx (.reading seen) := by
  induction calls generalizing e snapshot with
  | nil => exact ⟨snapshot, (rework_self h).symm⟩
  | cons c rest ih =>
      obtain ⟨hc, hrest⟩ := List.forall_mem_cons.1 hcalls
      have hread : (Action.read tx).Keeps fun d => ∃ seen, d = e.rework tx (.reading seen) := by
        rintro _ ⟨seen, rfl⟩
        obtain ⟨s, hs⟩ := Action.read_of_reading (h.rework (.reading seen))
        rw [hs]
        exact ⟨some s, rework_rework h _ _⟩
      have hwrite (change : Store → Store) :
          (Action.write tx change).Keeps fun d => ∃ seen, d = e.rework tx (.reading seen) := by
        rintro _ ⟨seen, rfl⟩
        have hnone : (e.rework tx (.reading seen)).draft? tx = none := by
          rw [Option.eq_none_iff_forall_ne_some]
          intro s hs
          exact nomatch (h.rework (.reading seen)).work.symm.trans (draft?_eq_some_iff.1 hs).work
        exact ((Action.leads_write_of_no_draft hnone change).imp (fun _ hd => hd)
          (fun _ _ hd => ⟨seen, hd⟩) fun _ hd => ⟨seen, hd⟩) _ rfl
      obtain ⟨seen, hstep⟩ := Effect.Meets.after
        (EngineCall.keeps_run_of_through hc hread hwrite fun name => Action.keeps_openCollection (by rintro _ ⟨seen, rfl⟩; exact hmode) hread name)
        ⟨snapshot, (rework_self h).symm⟩
      obtain ⟨seen', hnext⟩ := ih (h.rework (.reading seen)) hmode hrest
      refine ⟨seen', ?_⟩
      change (c.run.after e).afterCalls rest = _
      rw [hstep, hnext, rework_rework h]

/-! ### After the end -/

namespace Engine

theorem isStable_true : IsStable fun _ => True := by
  constructor <;> intros <;> trivial

/-- A transaction is over: it was begun, and is not active any more. -/
def IsOver (tx : Nat) (e : Engine) : Prop :=
  (e.transaction tx).isStarted = true ∧ (e.transaction tx).isActive = false

theorem isOver_setTransaction {other : Nat} {t : Transaction} (h : e.IsOver tx)
    (ha : t.isActive = true → (e.transaction other).isActive = true)
    (hs : (e.transaction other).isStarted = true → t.isStarted = true) :
    (e.setTransaction other t).IsOver tx := by
  rcases transaction_setTransaction e other t tx with heq | ⟨rfl, heq⟩
  · rw [IsOver, heq]
    exact h
  · rw [IsOver, heq]
    exact ⟨hs h.1, Bool.not_eq_true _ ▸ fun hactive => Bool.false_ne_true (h.2.symm.trans (ha hactive))⟩

/-- The connections and the stores do not count. -/
theorem IsOver.congr (h : e.IsOver tx) (ht : d.transactions = e.transactions) : d.IsOver tx := by
  rw [IsOver, transaction_congr ht]
  exact h

theorem isStable_isOver (tx : Nat) : IsStable (IsOver tx) where
  congr h _ _ ht := h.congr ht
  connect h := h.congr rfl
  setConnection h _ _ _ _ := h.congr rfl
  observed h _ := h.congr rfl
  close h := h.congr rfl
  make {e id scope mode} h := by
    have hlt : tx < e.transactions.length := by
      by_contra hle
      rw [IsOver, transaction, List.getElem?_eq_none (Nat.le_of_not_lt hle)] at h
      cases h.1
    rw [IsOver, transaction, List.getElem?_append_left hlt]
    exact h
  setTransaction h _ _ ha hs := isOver_setTransaction h ha hs
  ended {e other} h _ := by
    have hended : (e.setTransaction other { e.transaction other with isActive := false }).IsOver tx :=
      isOver_setTransaction h (by rintro ⟨⟩) id
    exact hended.congr rfl

end Engine

/-- Once a transaction is over it stays so. -/
theorem EngineCall.isOver_run (tx : Nat) (c : EngineCall) : c.run.Keeps (Engine.IsOver tx) := by
  refine keeps_run (Engine.isStable_isOver tx) (fun other change => ?_) (fun e other he hready => ?_)
    (fun _ _ _ he => he.congr rfl) (fun _ _ he => he.congr rfl) c
  · exact Action.meets_write (fun _ he => he) (fun _ _ he _ _ => he.congr rfl) fun _ he _ => he
  · -- a transaction that begins was not started before
    have hne : tx ≠ other := by
      rintro rfl
      exact Bool.false_ne_true (hready.isNew.symm.trans he.1)
    rw [Engine.IsOver, Engine.begun, Engine.transaction_setTransaction_of_ne hne]
    exact he

/-- A call that concerns a transaction: it goes through it, or begins or ends it. -/
def EngineCall.Concerns (tx : Nat) (c : EngineCall) : Prop :=
  c.through? = some tx ∨ c = .begin tx ∨ c = .commit tx ∨ ∃ error, c = .abort tx error

/-- No call that concerns a transaction does anything once it is over. -/
theorem EngineCall.leads_run_of_isOver (h : e.IsOver tx) {c : EngineCall} (hc : c.Concerns tx) :
    c.run.Leads e e := by
  have hnone {α : Type} {a : Action α} (ha : a.Leads e e) : (obtainsNone a).Leads e e :=
    meets_obtainsNone ha fun _ _ he => he
  have hinactive : (Action.ensureActive tx).Meets (· = e) (fun _ _ => False) (· = e) :=
    Action.meets_ensureActive_of_inactive h.2
  rcases hc with hthrough | rfl | rfl | ⟨error, rfl⟩
  · refine keeps_run_of_through hthrough (meets_fail hinactive) (fun _ => meets_fail hinactive)
      fun name => ?_
    rw [Action.openCollection_eq]
    refine meets_bind_of_ok (x := e.transaction tx) rfl ?_
    by_cases hmode : (e.transaction tx).mode = .versionchange
    · rw [if_pos hmode]
      exact meets_fail (meets_fail (meets_fail hinactive))
    · rw [if_neg hmode]
      refine meets_bind_of_ok (x := (e.transaction tx).scope) rfl ?_
      refine meets_bind_of_ok (t := e) (congrArg _ (Engine.setTransaction_self e tx)) ?_
      exact meets_fail hinactive
  · refine hnone (meets_bind_of_ok (x := e.transaction tx) rfl ?_)
    rw [if_pos h.1]
    exact meets_fail (keeps_throw _)
  · exact hnone (meets_fail hinactive)
  · refine hnone (meets_bind_of_ok (x := e.transaction tx) rfl ?_)
    rw [if_neg (by simp [h.2])]
    exact keeps_pure _

/-! ### Beginning and ending -/

/-- What the listeners of a connection are told of an event, one after the other. -/
def Connection.told (c : Connection) (event : Event) : List Notice :=
  (c.listeners.filter (·.type = event.type)).map fun l => .delivered l.serial event

/-- What the listeners of a connection are told when a transaction fails: those for errors first. -/
def Connection.toldOfFailure (c : Connection) (error : String) : List Notice :=
  c.told ⟨.error, c.version, none, error⟩ ++ c.told ⟨.abort, c.version, none, error⟩

namespace Action

variable {w : Work}

theorem begin_of_ok (h : begin tx e = .ok () d) :
    (e.connection (e.transaction tx).connection).isClosed = false ∧ d = e.begun tx :=
  (meets_begin (P := (· = e)) (E := fun _ => True) (Q := fun d =>
    (e.connection (e.transaction tx).connection).isClosed = false ∧ d = e.begun tx)
    Engine.isStable_true (fun _ _ => trivial)
    (by rintro _ rfl hready; exact ⟨hready.isOpen, rfl⟩)).of_ok rfl h

theorem transaction_begun (hmade : tx < e.transactions.length) : (e.begun tx).transaction tx =
    { e.transaction tx with isStarted := true, isActive := true } :=
  Engine.transaction_setTransaction_self hmade

/-- A transaction that has begun has nothing seen yet, or has what is kept for its draft. -/
theorem hasUnderWay_begun (hmade : tx < e.transactions.length)
    (hopen : (e.connection (e.transaction tx).connection).isClosed = false) :
    (e.begun tx).HasUnderWay tx (if (e.transaction tx).mode = .readonly then .reading none
      else .writing (e.store (e.connection (e.transaction tx).connection).path)) := by
  refine ⟨?_, ?_, ?_⟩
  · rw [transaction_begun hmade]
  · rw [transaction_begun hmade]
    exact (congrArg Connection.isClosed (Engine.connection_setConnection_self hopen)).trans hopen
  · rw [transaction_begun hmade]
    exact Engine.work_begun hopen

theorem connection_rework_begun (hmade : tx < e.transactions.length)
    (hopen : (e.connection (e.transaction tx).connection).isClosed = false) (w : Work) :
    ((e.begun tx).rework tx w).connection (e.transaction tx).connection =
      { e.connection (e.transaction tx).connection with work := w } := by
  have hrework := Engine.connection_rework_self (hasUnderWay_begun hmade hopen) w
  rw [transaction_begun hmade] at hrework
  have hbegun : (e.begun tx).connection (e.transaction tx).connection = _ :=
    Engine.connection_setConnection_self hopen
  rw [hrework, hbegun]

theorem tell_run (event : Event) (l : Listener) (e : Engine) : tell event l e =
    ending (if l.fails = true then .error (.argument .listenerReport) else .ok ())
      { e with notices := e.notices ++ [.delivered l.serial event] } := by
  unfold tell
  cases l.fails with
  | true => rfl
  | false => rfl

theorem tellAll_run {listeners : List Listener} (hquiet : ∀ l ∈ listeners, l.fails = false)
    (event : Event) (e : Engine) : tellAll event listeners e = .ok ()
      { e with notices := e.notices ++ listeners.map fun l => .delivered l.serial event } := by
  induction listeners generalizing e with
  | nil =>
      rw [List.map_nil, List.append_nil]
      rfl
  | cons l rest ih =>
      obtain ⟨hl, hrest⟩ := List.forall_mem_cons.1 hquiet
      have htell := tell_run event l e
      rw [hl, if_neg Bool.false_ne_true] at htell
      rw [tellAll, bind_of_ok htell, ih hrest, List.append_assoc]
      rfl

/-- An event is delivered to each listener for it, if none of them fails. -/
theorem dispatch_run {id : Nat} (hquiet : ∀ l ∈ (e.connection id).listeners, l.fails = false)
    (event : Event) : dispatch id event e = .ok ()
      { e with notices := e.notices ++ (e.connection id).told event } :=
  tellAll_run (fun l hl => hquiet l (List.mem_of_mem_filter hl)) event e

/-- An abort ends the transaction and tells the listeners. -/
theorem abort_run (h : e.HasUnderWay tx w)
    (hquiet : ∀ l ∈ (e.connection (e.transaction tx).connection).listeners, l.fails = false)
    (error : String) : abort tx (some error) e = .ok () { e.ended tx with
      notices := e.notices ++ (e.connection (e.transaction tx).connection).toldOfFailure error } := by
  have hended (notices : List Notice) :
      ({ e.ended tx with notices := notices } : Engine).connection (e.transaction tx).connection =
        { e.connection (e.transaction tx).connection with work := .idle } :=
    Engine.connection_setConnection_self h.isOpen
  have hdispatch (notices : List Notice) (event : Event) :
      dispatch (e.transaction tx).connection event { e.ended tx with notices := notices } = .ok ()
        { e.ended tx with notices := notices ++
          (e.connection (e.transaction tx).connection).told event } := by
    rw [dispatch_run (by rw [hended]; exact hquiet), hended]
    rfl
  unfold abort
  have htransaction : transaction tx e = .ok (e.transaction tx) e := rfl
  rw [bind_of_ok htransaction, if_pos h.active, modify_bind, bind_of_ok (statement_run_ended h),
    modify_bind]
  change (dispatch (e.transaction tx).connection ⟨.error, _, none, some error⟩ >>= fun _ =>
    dispatch (e.transaction tx).connection ⟨.abort, _, none, some error⟩)
      { e.ended tx with notices := e.notices } = _
  rw [bind_of_ok (hdispatch _ _), hdispatch, List.append_assoc]
  rfl

theorem conclude_ok_run (h : e.HasUnderWay tx w) (x : α) : conclude tx (.ok x) e = .ok x
    ((e.keepWork (e.connection (e.transaction tx).connection).path w).ended tx) := by
  rw [conclude, bind_of_ok (commit_run h)]
  rfl

theorem conclude_error_run (h : e.HasUnderWay tx w)
    (hquiet : ∀ l ∈ (e.connection (e.transaction tx).connection).listeners, l.fails = false)
    (f : Failure) : conclude tx (.error f : Except Failure α) e = .error f { e.ended tx with
      notices := e.notices ++
        (e.connection (e.transaction tx).connection).toldOfFailure f.className } := by
  rw [conclude, bind_of_ok (abort_run h hquiet _)]
  rfl

/-- A transaction that was begun is over when it has ended. -/
theorem isOver_ended (h : e.HasUnderWay tx w) (hstarted : (e.transaction tx).isStarted = true) :
    (e.ended tx).IsOver tx := by
  have htransaction : (e.ended tx).transaction tx = { e.transaction tx with isActive := false } :=
    Engine.transaction_setTransaction_self (Engine.lt_of_isActive h.active)
  rw [Engine.IsOver, htransaction]
  exact ⟨hstarted, rfl⟩

/-- The calls of a body leave the stores that are kept and the notices alone. What is under way is
then a draft with all their changes, or what was seen. -/
theorem exists_afterCalls_begun (hmade : tx < e.transactions.length)
    (hopen : (e.connection (e.transaction tx).connection).isClosed = false)
    (hmode : (e.transaction tx).mode ≠ .versionchange) {calls : List EngineCall}
    (hcalls : ∀ c ∈ calls, c.through? = some tx) :
    ∃ w, (e.begun tx).afterCalls calls = (e.begun tx).rework tx w ∧
      ((e.transaction tx).mode = .readonly ∧ (∃ seen, w = .reading seen) ∨
        (e.transaction tx).mode ≠ .readonly ∧ w = .writing
          ((e.store (e.connection (e.transaction tx).connection).path).afterCalls
            (e.transaction tx).mode calls)) := by
  have hunderWay := hasUnderWay_begun hmade hopen
  have hbegun : ((e.begun tx).transaction tx).mode = (e.transaction tx).mode := by
    rw [transaction_begun hmade]
  by_cases hreads : (e.transaction tx).mode = .readonly
  · rw [if_pos hreads] at hunderWay
    obtain ⟨seen, hseen⟩ := Engine.afterCalls_of_reading hunderWay (hbegun ▸ hmode) hcalls
    exact ⟨_, hseen, .inl ⟨hreads, seen, rfl⟩⟩
  · rw [if_neg hreads] at hunderWay
    refine ⟨_, ?_, .inr ⟨hreads, rfl⟩⟩
    rw [← hbegun]
    exact Engine.afterCalls_of_draft (Engine.draft?_eq_some_iff.2 hunderWay) (hbegun ▸ hreads)
      (hbegun ▸ hmode) hcalls

/-- A transaction is all or nothing, and final. When its body fails, the stores are as they were,
the failure goes on, and each listener for errors and then each for aborts is told once; when its
body succeeds, all changes of its calls are kept and nobody is told anything. Whatever is called
after that, no call that concerns the transaction does anything. -/
theorem within_isAtomic (hmade : tx < e.transactions.length)
    (hmode : (e.transaction tx).mode ≠ .versionchange) (hbegin : begin tx e = .ok () d)
    (hquiet : ∀ l ∈ (e.connection (e.transaction tx).connection).listeners, l.fails = false)
    {calls : List EngineCall} (hcalls : ∀ c ∈ calls, c.through? = some tx)
    (result : Except Failure α) : ∃ e', within tx (EngineCall.body calls result) e = ending result e' ∧
      (match result with
        | .ok _ =>
          (∀ path, e'.store path = if path = (e.connection (e.transaction tx).connection).path
            then (e.store path).afterCalls (e.transaction tx).mode calls else e.store path) ∧
            e'.notices = e.notices
        | .error f => e'.stores = e.stores ∧ e'.notices = e.notices ++
          (e.connection (e.transaction tx).connection).toldOfFailure f.className) ∧
      ∀ (later : List EngineCall) (c : EngineCall), c.Concerns tx →
        c.run.after (e'.afterCalls later) = e'.afterCalls later := by
  obtain ⟨hopen, rfl⟩ := begin_of_ok hbegin
  obtain ⟨w, hcalled, hw⟩ := exists_afterCalls_begun hmade hopen hmode hcalls
  have hunderWay := (hasUnderWay_begun hmade hopen).rework w
  have hconnection := connection_rework_begun hmade hopen w
  have htransaction : ((e.begun tx).rework tx w).transaction tx =
      { e.transaction tx with isStarted := true, isActive := true } := transaction_begun hmade
  have hbody : attempt (EngineCall.body calls result) (e.begun tx) =
      .ok result ((e.begun tx).rework tx w) := by
    rw [← hcalled]
    exact attempt_of_ending (EngineCall.body_run calls result _)
  have hfinal {e' : Engine} (hover : e'.IsOver tx) (later : List EngineCall) (c : EngineCall)
      (hc : c.Concerns tx) : c.run.after (e'.afterCalls later) = e'.afterCalls later := by
    refine Effect.Meets.after (EngineCall.leads_run_of_isOver ?_ hc) rfl
    induction later generalizing e' with
    | nil => exact hover
    | cons other rest ih => exact ih (Effect.Meets.after (EngineCall.isOver_run tx other) hover)
  have hstarted : (((e.begun tx).rework tx w).transaction tx).isStarted = true := by
    rw [htransaction]
  unfold within
  rw [bind_of_ok hbegin, bind_of_ok hbody]
  cases result with
  | ok x =>
      refine ⟨_, conclude_ok_run hunderWay x, ⟨fun path => ?_, ?_⟩, hfinal ?_⟩
      · rw [htransaction, hconnection]
        rcases hw with ⟨hreads, seen, rfl⟩ | ⟨_, rfl⟩
        · rw [Store.afterCalls, if_pos hreads, ite_self]
          rfl
        · by_cases hpath : path = (e.connection (e.transaction tx).connection).path
          · rw [if_pos hpath, hpath]
            exact Engine.store_keep_self _ _ _
          · rw [if_neg hpath]
            exact Engine.store_keep_of_ne hpath
      · rcases hw with ⟨_, seen, rfl⟩ | ⟨_, rfl⟩
        · rfl
        · rfl
      · rcases hw with ⟨_, seen, rfl⟩ | ⟨_, rfl⟩
        · exact isOver_ended hunderWay hstarted
        · exact (isOver_ended hunderWay hstarted).congr rfl
  | error f =>
      have hquiet' : ∀ l ∈ (((e.begun tx).rework tx w).connection
          (((e.begun tx).rework tx w).transaction tx).connection).listeners, l.fails = false := by
        rw [htransaction, hconnection]
        exact hquiet
      refine ⟨_, conclude_error_run hunderWay hquiet' f, ⟨rfl, ?_⟩,
        hfinal ((isOver_ended hunderWay hstarted).congr rfl)⟩
      rw [htransaction, hconnection]
      rfl

/-! ### A body that fails after some of its calls -/

/-- A store with one collection, listeners at its connection, and a transaction that is to write. -/
def notesReady : Engine :=
  Engine.initial.afterCalls [.beginOpen "path" (.int 1) none,
    .createCollection 0 (.text "notes") .null (.bool true), .conclude (.upgrade 0 0 0 1) (.ok ()),
    .addListener 0 (.text "abort") false, .addListener 0 (.text "error") false,
    .openTransaction 0 (.text "notes") (.text "readwrite")]

/-- The collection as the transaction obtains it. -/
def notes : StoreRef := ⟨1, "notes", ⟨none, true⟩⟩

/-- Calls of which the second generates a key, and the last is refused for it. -/
def notesCalls : List EngineCall :=
  [.openCollection 1 (.text "notes"), .put notes (.text "first") .null,
    .add notes (.text "second") (.int 1)]

/-- What the last of the calls fails with. -/
def notesFailure : Failure := .store (.duplicateKey (.int 1) "notes")

/-- Nothing is left of the calls, and both listeners are told. -/
theorem within_isAtomic_notes : ∃ e',
    within 1 (EngineCall.body notesCalls (.error notesFailure : Except Failure Unit)) notesReady =
        .error notesFailure e' ∧
      (e'.stores = notesReady.stores ∧ e'.notices = notesReady.notices ++
        (notesReady.connection (notesReady.transaction 1).connection).toldOfFailure
          notesFailure.className) ∧
      ∀ (later : List EngineCall) (c : EngineCall), c.Concerns 1 →
        c.run.after (e'.afterCalls later) = e'.afterCalls later := by
  have hbegun : (begin 1).result? notesReady = some () := by decide +kernel
  obtain ⟨d, hbegin⟩ := exists_ok_of_result? hbegun
  exact within_isAtomic (by decide +kernel) (by decide +kernel) hbegin (by decide +kernel)
    (by decide) (.error notesFailure)

end Action
end RecordStore
