import RecordStore.Proofs.Engine.Openings

/-!
Listeners that fail. The failure of a listener cannot even be reported, so it ends the telling and takes
the place of whatever was to come after it: of the failure that a transaction was aborted for, and of the
refusal of those who want to change the version of a path that is held open.
-/

namespace RecordStore

open Effect

/-- Those of some listeners that are told something, one after the other until one fails. -/
def Listener.reached : List Listener → List Listener
  | [] => []
  | l :: rest => if l.fails then [l] else l :: reached rest

namespace Connection

variable {c : Connection}

/-- A listener for a type of event fails. -/
def FailsAt (c : Connection) (type : EventType) : Prop :=
  ∃ l ∈ c.listeners, l.type = type ∧ l.fails = true

instance (c : Connection) (type : EventType) : Decidable (c.FailsAt type) :=
  inferInstanceAs (Decidable (∃ l ∈ c.listeners, _))

/-- What the listeners of a connection come to hear of an event. -/
def heard (c : Connection) (event : Event) : List Notice :=
  (Listener.reached (c.listeners.filter (·.type = event.type))).map fun l => .delivered l.serial event

/-- How the telling of an event ends. -/
def response (c : Connection) (type : EventType) : Except Failure Unit :=
  if c.FailsAt type then .error (.argument .listenerReport) else .ok ()

/-- What the listeners of a connection come to hear when a transaction fails. -/
def heardOfFailure (c : Connection) (error : String) : List Notice :=
  c.heard ⟨.error, c.version, none, error⟩ ++
    if c.FailsAt .error then [] else c.heard ⟨.abort, c.version, none, error⟩

/-- What comes out of a transaction that fails. -/
def failureOf (c : Connection) (f : Failure) : Failure :=
  if c.FailsAt .error ∨ c.FailsAt .abort then .argument .listenerReport else f

/-- What the listeners of connections come to hear when their store is to get another version. -/
def heardOfChange (new : Option Nat) : List Connection → List Notice
  | [] => []
  | c :: rest => c.heard ⟨.versionchange, c.version, new, none⟩ ++
    if c.FailsAt .versionchange then [] else heardOfChange new rest

end Connection

namespace Engine

/-- A connection that holds a path open has a listener that fails when it is told of a change. -/
def FailsAtChange (e : Engine) (path : String) : Prop :=
  ∃ c ∈ (e.liveAt path).map e.connection, c.FailsAt .versionchange

instance (e : Engine) (path : String) : Decidable (e.FailsAtChange path) :=
  inferInstanceAs (Decidable (∃ c ∈ _, _))

/-- How those are refused who want to change the version of a path that is held open. -/
def refusal (e : Engine) (path : String) (new : Option Nat) : Failure :=
  if e.FailsAtChange path then .argument .listenerReport
  else .store (.blocked path (e.store path).version new)

/-- What is left of such a refusal: what was heard, and a callback unless a listener has failed. -/
def refused (e : Engine) (path : String) (new : Option Nat) (callback : Option String) : Engine :=
  { e with
    notices := e.notices ++ Connection.heardOfChange new ((e.liveAt path).map e.connection)
    waiters := e.waiters ++
      if e.FailsAtChange path then [] else callback.toList.map fun label => (path, label) }

/-- What is left when listeners return: all of them were told, and the callback waits. -/
def heldOpen (e : Engine) (path : String) (new : Option Nat) (callback : Option String) : Engine :=
  { e with
    notices := e.notices ++ ((e.liveAt path).map e.connection).flatMap fun c =>
      c.told ⟨.versionchange, c.version, new, none⟩
    waiters := e.waiters ++ callback.toList.map fun label => (path, label) }

end Engine

/-! ### Listeners that return -/

theorem Listener.reached_of_quiet {listeners : List Listener} (h : ∀ l ∈ listeners, l.fails = false) :
    reached listeners = listeners := by
  induction listeners with
  | nil => rfl
  | cons l rest ih =>
      obtain ⟨hl, hrest⟩ := List.forall_mem_cons.1 h
      rw [reached, hl, ih hrest]
      rfl

theorem Listener.reached_prefix (listeners : List Listener) : reached listeners <+: listeners := by
  induction listeners with
  | nil => exact List.prefix_rfl
  | cons l rest ih =>
      rw [reached]
      split
      · exact ⟨rest, rfl⟩
      · exact List.prefix_cons_inj l |>.2 ih

/-- Nobody is told twice or out of turn. -/
theorem Connection.heard_prefix_told (c : Connection) (event : Event) : c.heard event <+: c.told event :=
  (Listener.reached_prefix _).map _

theorem Connection.heard_of_quiet {c : Connection} {event : Event} (h : ¬c.FailsAt event.type) :
    c.heard event = c.told event := by
  refine congrArg (List.map _) (Listener.reached_of_quiet fun l hl => ?_)
  obtain ⟨hmem, htype⟩ := List.mem_filter.1 hl
  exact Bool.eq_false_iff.2 fun hfails => h ⟨l, hmem, of_decide_eq_true htype, hfails⟩

theorem Connection.heardOfFailure_of_quiet {c : Connection} (herror : ¬c.FailsAt .error)
    (habort : ¬c.FailsAt .abort) (error : String) : c.heardOfFailure error = c.toldOfFailure error := by
  rw [heardOfFailure, if_neg herror, heard_of_quiet herror, heard_of_quiet habort]
  rfl

theorem Connection.heardOfChange_of_quiet {new : Option Nat} {cs : List Connection}
    (h : ∀ c ∈ cs, ¬c.FailsAt .versionchange) :
    heardOfChange new cs = cs.flatMap fun c => c.told ⟨.versionchange, c.version, new, none⟩ := by
  induction cs with
  | nil => rfl
  | cons c rest ih =>
      obtain ⟨hc, hrest⟩ := List.forall_mem_cons.1 h
      rw [heardOfChange, if_neg hc, ih hrest, heard_of_quiet hc, List.flatMap_cons]

theorem Engine.refused_of_quiet {e : Engine} {path : String} (h : ¬e.FailsAtChange path)
    (new : Option Nat) (callback : Option String) :
    e.refusal path new = .store (.blocked path (e.store path).version new) ∧
      e.refused path new callback = e.heldOpen path new callback := by
  refine ⟨if_neg h, ?_⟩
  rw [refused, if_neg h, Connection.heardOfChange_of_quiet fun c hc hfails => h ⟨c, hc, hfails⟩]
  rfl

/-! ### Telling -/

namespace Action

variable {α : Type} {e d : Engine} {path : String} {tx : Nat} {w : Work}

theorem tellAll_reached (event : Event) (listeners : List Listener) (e : Engine) :
    tellAll event listeners e =
      ending (if ∃ l ∈ listeners, l.fails = true then .error (.argument .listenerReport) else .ok ())
        { e with notices := e.notices ++
          (Listener.reached listeners).map fun l => .delivered l.serial event } := by
  induction listeners generalizing e with
  | nil =>
      rw [if_neg (by rintro ⟨l, hl, _⟩; cases hl), Listener.reached, List.map_nil, List.append_nil]
      rfl
  | cons l rest ih =>
      have htell := tell_run event l e
      cases hfails : l.fails with
      | true =>
          rw [if_pos hfails] at htell
          rw [tellAll, bind_of_error htell, if_pos ⟨l, List.mem_cons_self, hfails⟩, Listener.reached,
            if_pos hfails]
          rfl
      | false =>
          rw [hfails, if_neg Bool.false_ne_true] at htell
          have hfail : (∃ l' ∈ l :: rest, l'.fails = true) ↔ ∃ l' ∈ rest, l'.fails = true := by
            rw [List.exists_mem_cons_iff, hfails, or_iff_right Bool.false_ne_true]
          have hreached : Listener.reached (l :: rest) = l :: Listener.reached rest := by
            rw [Listener.reached, hfails]
            rfl
          rw [tellAll, bind_of_ok htell, ih, hreached, if_congr hfail rfl rfl, List.append_assoc]
          rfl

/-- The listeners for an event are told up to the first that fails, which ends the telling. -/
theorem dispatch_heard (id : Nat) (event : Event) (e : Engine) :
    dispatch id event e = ending ((e.connection id).response event.type)
      { e with notices := e.notices ++ (e.connection id).heard event } := by
  have hfail : (∃ l ∈ (e.connection id).listeners.filter (·.type = event.type), l.fails = true) ↔
      (e.connection id).FailsAt event.type := by
    constructor
    · rintro ⟨l, hl, hfails⟩
      obtain ⟨hmem, htype⟩ := List.mem_filter.1 hl
      exact ⟨l, hmem, of_decide_eq_true htype, hfails⟩
    · rintro ⟨l, hmem, htype, hfails⟩
      exact ⟨l, List.mem_filter.2 ⟨hmem, decide_eq_true htype⟩, hfails⟩
  refine (tellAll_reached event _ e).trans ?_
  rw [if_congr hfail rfl rfl]
  rfl

theorem dispatch_of_fails {id : Nat} (event : Event) (h : (e.connection id).FailsAt event.type) :
    dispatch id event e = .error (.argument .listenerReport)
      { e with notices := e.notices ++ (e.connection id).heard event } := by
  rw [dispatch_heard, Connection.response, if_pos h]
  rfl

theorem dispatch_of_quiet {id : Nat} (event : Event) (h : ¬(e.connection id).FailsAt event.type) :
    dispatch id event e = .ok ()
      { e with notices := e.notices ++ (e.connection id).heard event } := by
  rw [dispatch_heard, Connection.response, if_neg h]
  rfl

/-! ### Transactions that fail -/

/-- The listeners of a connection are those that it had when its transaction was still under way. -/
theorem dispatch_ended (h : e.HasUnderWay tx w) (notices : List Notice) (event : Event) :
    dispatch (e.transaction tx).connection event { e.ended tx with notices := notices } =
      ending ((e.connection (e.transaction tx).connection).response event.type) { e.ended tx with
        notices := notices ++ (e.connection (e.transaction tx).connection).heard event } := by
  have hended : ({ e.ended tx with notices := notices } : Engine).connection
      (e.transaction tx).connection = { e.connection (e.transaction tx).connection with work := .idle } :=
    Engine.connection_setConnection_self h.isOpen
  rw [dispatch_heard, hended]
  rfl

/-- An abort ends the transaction, whatever its listeners do after that. -/
theorem abort_heard (h : e.HasUnderWay tx w) {c : Connection}
    (hc : c = e.connection (e.transaction tx).connection) (error : String) :
    abort tx (some error) e = ending
      (if c.FailsAt .error ∨ c.FailsAt .abort then .error (.argument .listenerReport) else .ok ())
      { e.ended tx with notices := e.notices ++ c.heardOfFailure error } := by
  subst hc
  set c := e.connection (e.transaction tx).connection
  have hfirst := dispatch_ended h e.notices ⟨.error, c.version, none, some error⟩
  have hsecond := dispatch_ended h (e.notices ++ c.heard ⟨.error, c.version, none, some error⟩)
    ⟨.abort, c.version, none, some error⟩
  rw [Connection.response] at hfirst hsecond
  have htransaction : transaction tx e = .ok (e.transaction tx) e := rfl
  unfold abort
  rw [bind_of_ok htransaction, if_pos h.active, modify_bind, bind_of_ok (statement_run_ended h),
    modify_bind]
  -- those for errors are told first, and those for aborts only if none of them fails
  change (dispatch (e.transaction tx).connection ⟨.error, c.version, none, some error⟩ >>= fun _ =>
    dispatch (e.transaction tx).connection ⟨.abort, c.version, none, some error⟩) { e.ended tx with notices := e.notices } = _
  by_cases herror : c.FailsAt .error
  · rw [if_pos herror] at hfirst
    rw [if_pos (.inl herror), Connection.heardOfFailure, if_pos herror, List.append_nil]
    exact bind_of_error hfirst _
  · rw [if_neg herror] at hfirst
    rw [if_congr (or_iff_right herror) rfl rfl, Connection.heardOfFailure, if_neg herror,
      ← List.append_assoc]
    refine (bind_of_ok hfirst _).trans ?_
    exact hsecond

theorem conclude_error_heard (h : e.HasUnderWay tx w) {c : Connection}
    (hc : c = e.connection (e.transaction tx).connection) (f : Failure) :
    conclude tx (.error f : Except Failure α) e = .error (c.failureOf f)
      { e.ended tx with notices := e.notices ++ c.heardOfFailure f.className } := by
  have habort := abort_heard h hc f.className
  rw [conclude, Connection.failureOf]
  by_cases hfails : c.FailsAt .error ∨ c.FailsAt .abort
  · rw [if_pos hfails] at habort ⊢
    exact bind_of_error habort _
  · rw [if_neg hfails] at habort ⊢
    exact bind_of_ok habort _

theorem within_error_heard {body : Action α} {d' : Engine} {f : Failure} (hbegin : begin tx e = .ok () d)
    (hbody : body d = .error f d') (h : d'.HasUnderWay tx w) : within tx body e =
      .error ((d'.connection (d'.transaction tx).connection).failureOf f) { d'.ended tx with
        notices := d'.notices ++
          (d'.connection (d'.transaction tx).connection).heardOfFailure f.className } := by
  unfold within
  rw [bind_of_ok hbegin, bind_of_ok (attempt_of_ending (r := .error f) hbody)]
  exact conclude_error_heard h rfl f

/-! ### Changes of version that are refused -/

theorem announce_heard (new : Option Nat) (ids : List Nat) (e : Engine) :
    announce new ids e = ending
      (if ∃ c ∈ ids.map e.connection, c.FailsAt .versionchange then .error (.argument .listenerReport)
        else .ok ())
      { e with notices := e.notices ++ Connection.heardOfChange new (ids.map e.connection) } := by
  induction ids generalizing e with
  | nil =>
      rw [if_neg (by rintro ⟨c, hc, _⟩; cases hc), List.map_nil, Connection.heardOfChange,
        List.append_nil]
      rfl
  | cons id rest ih =>
      rw [announce, bind_of_ok (connection_run id e), List.map_cons, Connection.heardOfChange]
      by_cases hfails : (e.connection id).FailsAt .versionchange
      · rw [bind_of_error (dispatch_of_fails _ hfails), if_pos ⟨_, List.mem_cons_self, hfails⟩,
          if_pos hfails, List.append_nil]
        rfl
      · have hrest : (∃ c ∈ e.connection id :: rest.map e.connection, c.FailsAt .versionchange) ↔
            ∃ c ∈ rest.map e.connection, c.FailsAt .versionchange := by
          rw [List.exists_mem_cons_iff, or_iff_right hfails]
        rw [bind_of_ok (dispatch_of_quiet _ hfails), ih, if_neg hfails, if_congr hrest rfl rfl,
          ← List.append_assoc]
        rfl

/-- While a path is held open its version cannot be changed, whatever the listeners do. -/
theorem checkBlockers_heard (hlive : e.liveAt path ≠ []) {old : Nat} (hold : old = (e.store path).version)
    (new : Option Nat) (callback : Option String) : checkBlockers path old new callback e =
      .error (e.refusal path new) (e.refused path new callback) := by
  subst hold
  have htold : announce new (e.liveAt path) e = ending
      (if e.FailsAtChange path then .error (.argument .listenerReport) else .ok ())
      { e with notices := e.notices ++ Connection.heardOfChange new ((e.liveAt path).map e.connection) } :=
    announce_heard new (e.liveAt path) e
  unfold checkBlockers
  rw [bind_of_ok (get_run e), Engine.refusal, Engine.refused]
  by_cases hfails : e.FailsAtChange path
  · rw [if_pos hfails] at htold
    rw [bind_of_error htold, if_pos hfails, if_pos hfails, List.append_nil]
  · rw [if_neg hfails] at htold
    have hheld (notices : List Notice) :
        (!(Engine.liveAt { e with notices := notices } path).isEmpty) = true := by
      rw [Bool.not_eq_true', Bool.eq_false_iff]
      exact fun hempty => hlive (List.isEmpty_iff.1 hempty)
    rw [bind_of_ok htold, if_neg hfails, if_neg hfails]
    refine (bind_of_ok (get_run _) _).trans ?_
    exact congrFun (if_pos (hheld _)) _

theorem deleteStore_heard (hlive : e.liveAt path ≠ []) (callback : Option String) :
    deleteStore path callback e = .error (e.refusal path none) (e.refused path none callback) := by
  unfold deleteStore
  rw [bind_of_ok (get_run e), bind_of_error (checkBlockers_heard hlive rfl none callback)]

/-- A connection that is made for an opening does not come among those that are told of it. -/
theorem refused_connected (he : e.HoldsMade 0) (path : String) (n : Nat) (callback : Option String) :
    (e.connected path n).refusal path (some n) = e.refusal path (some n) ∧
      (e.connected path n).refused path (some n) callback =
        (e.refused path (some n) callback).connected path n := by
  have htold : ((e.connected path n).liveAt path).map (e.connected path n).connection =
      (e.liveAt path).map e.connection := by
    rw [(Engine.spares_connected e path n).liveAt_eq he path]
    refine List.map_congr_left fun id hid => ?_
    exact Engine.connection_append_of_lt (he.live id (List.mem_of_mem_filter hid)) _
  have hfails : (e.connected path n).FailsAtChange path ↔ e.FailsAtChange path := by
    unfold Engine.FailsAtChange
    rw [htold]
  refine ⟨?_, ?_⟩
  · rw [Engine.refusal, Engine.refusal, if_congr hfails rfl rfl]
    rfl
  · rw [Engine.refused, htold, if_congr hfails rfl rfl]
    rfl

theorem beginOpen_heard (he : e.HoldsMade 0) (hlive : e.liveAt path ≠ []) {n : Nat}
    (hn : (e.store path).version < n) (callback : Option String) : beginOpen path (.int n) callback e =
      .error (e.refusal path (some n))
        (((e.refused path (some n) callback).connected path n).closed e.connections.length) := by
  have hlive' : (e.connected path n).liveAt path ≠ [] := by
    rw [(Engine.spares_connected e path n).liveAt_eq he path]
    exact hlive
  have hchecked : checkBlockers path (e.store path).version (some n) callback (e.connected path n) =
      .error _ _ := checkBlockers_heard hlive' rfl (some n) callback
  obtain ⟨hrefusal, hrefused⟩ := refused_connected he path n callback
  rw [hrefusal, hrefused] at hchecked
  have hblocked : beginUpgrade e.connections.length path (e.store path).version n callback
      (e.connected path n) = .error _ _ := bind_of_error hchecked _
  rw [beginOpen_run (by omega), if_neg (by omega), if_neg (by omega)]
  exact tryCatch_of_error hblocked _

theorem openStore_heard (he : e.HoldsMade 0) (hlive : e.liveAt path ≠ []) {n : Nat}
    (hn : (e.store path).version < n) (callback : Option String)
    (upgrade : Nat → Nat → Nat → Action Unit) : openStore path (.int n) callback upgrade e =
      .error (e.refusal path (some n))
        (((e.refused path (some n) callback).connected path n).closed e.connections.length) :=
  bind_of_error (beginOpen_heard he hlive hn callback) _

/-! ### What a failing listener changes -/

/-- Listeners change no outcome: all of them are told, a transaction that fails does so with the failure of
its body, and whoever is refused for others who hold a path is told so and can wait for them. -/
structure SparesOutcomes (e : Engine) : Prop where
  transaction {tx : Nat} {body : Action Unit} {d d' : Engine} {w : Work} {f : Failure} :
    begin tx e = .ok () d → body d = .error f d' → d'.HasUnderWay tx w →
      within tx body e = .error f { d'.ended tx with notices := d'.notices ++
        (d'.connection (d'.transaction tx).connection).toldOfFailure f.className }
  deleteStore {path : String} (callback : Option String) : e.liveAt path ≠ [] →
    deleteStore path callback e = .error (.store (.blocked path (e.store path).version none))
      (e.heldOpen path none callback)
  openStore {path : String} {n : Nat} (callback : Option String)
      (upgrade : Nat → Nat → Nat → Action Unit) :
    e.liveAt path ≠ [] → (e.store path).version < n → openStore path (.int n) callback upgrade e =
      .error (.store (.blocked path (e.store path).version (some n)))
        (((e.heldOpen path (some n) callback).connected path n).closed e.connections.length)

/-- A listener that fails takes the place of what comes after it. A transaction that fails is rolled back
and its listeners are told up to the first that fails, those for aborts only if none for errors does; if one
fails that is what comes out, else the failure of the body. Whoever wants to change the version of a path
that is held open is refused after the same manner, and can wait only if no listener has failed. -/
theorem outcomes_of_listeners (he : e.IsAttained) :
    (∀ {tx : Nat} {body : Action Unit} {d d' : Engine} {w : Work} {f : Failure},
      begin tx e = .ok () d → body d = .error f d' → d'.HasUnderWay tx w →
      within tx body e =
        .error ((d'.connection (d'.transaction tx).connection).failureOf f)
          { d'.ended tx with notices := d'.notices ++
            (d'.connection (d'.transaction tx).connection).heardOfFailure f.className }) ∧
    ∀ (path : String) (callback : Option String), e.liveAt path ≠ [] →
      deleteStore path callback e = .error (e.refusal path none) (e.refused path none callback) ∧
      ∀ {n : Nat} (upgrade : Nat → Nat → Nat → Action Unit), (e.store path).version < n →
        openStore path (.int n) callback upgrade e = .error (e.refusal path (some n))
          (((e.refused path (some n) callback).connected path n).closed e.connections.length) := by
  refine ⟨fun hbegin hbody hunderWay => ?_, fun path callback hlive => ⟨?_, fun upgrade hn => ?_⟩⟩
  · exact within_error_heard hbegin hbody hunderWay
  · exact deleteStore_heard hlive callback
  · exact openStore_heard he.holdsMade hlive hn callback upgrade

/-- A store with one collection, listeners of which the first for each of two types of event fails, and a
transaction that is to write. -/
def raising : Engine :=
  Engine.initial.afterCalls [.beginOpen "path" (.int 1) none,
    .createCollection 0 (.text "notes") .null (.bool true), .conclude (.upgrade 0 0 0 1) (.ok ()),
    .addListener 0 (.text "error") true, .addListener 0 (.text "error") false,
    .addListener 0 (.text "abort") false, .addListener 0 (.text "versionchange") true,
    .openTransaction 0 (.text "notes") (.text "readwrite")]

theorem isAttained_raising : raising.IsAttained := by
  refine .afterCalls .initial ⟨trivial, trivial, ?_, trivial, trivial, trivial, trivial, trivial, trivial⟩
  change 0 < (Engine.connections _).length
  decide +kernel

theorem begin_raising : begin 1 raising = .ok () (raising.begun 1) ∧
    ∃ w, (raising.begun 1).HasUnderWay 1 w := by
  obtain ⟨d, hbegin⟩ : ∃ d, begin 1 raising = .ok () d := exists_ok_of_result? (by decide +kernel)
  obtain ⟨hopen, rfl⟩ := begin_of_ok hbegin
  exact ⟨hbegin, _, hasUnderWay_begun (by decide +kernel) hopen⟩

/-- Of the listeners only two are told, one of the failure of the body and one of the change; that failure
is lost, and nobody waits. -/
theorem outcomes_of_listeners_raising :
    (∃ d, within 1 (throw notesFailure : Action Unit) raising = .error (.argument .listenerReport) d ∧
      d.notices.length = 1 ∧ d.stores = raising.stores) ∧
    ∃ d, deleteStore "path" (some "waits") raising = .error (.argument .listenerReport) d ∧
      d.notices.length = 1 ∧ d.waiters = [] := by
  obtain ⟨htransaction, hchange⟩ := outcomes_of_listeners isAttained_raising
  obtain ⟨hbegin, w, hunderWay⟩ := begin_raising
  have hfailed := htransaction (f := notesFailure) hbegin rfl hunderWay
  rw [Connection.failureOf, if_pos (by decide +kernel)] at hfailed
  obtain ⟨hdeleted, _⟩ := hchange "path" (some "waits") (by decide +kernel)
  rw [Engine.refusal, if_pos (by decide +kernel)] at hdeleted
  refine ⟨⟨_, hfailed, ?_, rfl⟩, ⟨_, hdeleted, ?_, ?_⟩⟩
  · decide +kernel
  · decide +kernel
  · exact List.append_eq_nil_iff.2 ⟨by decide +kernel, if_pos (by decide +kernel)⟩

/-- A listener that fails does change the outcome of a transaction. -/
theorem not_sparesOutcomes_raising : ¬SparesOutcomes raising := by
  intro h
  obtain ⟨hbegin, w, hunderWay⟩ := begin_raising
  have hspared := h.transaction (f := notesFailure) hbegin rfl hunderWay
  have hbody : (throw notesFailure : Action Unit) (raising.begun 1) = .error _ _ := rfl
  have hfailed := within_error_heard hbegin hbody hunderWay
  rw [Connection.failureOf, if_pos (by decide +kernel)] at hfailed
  cases hfailed.symm.trans hspared

end Action
end RecordStore
