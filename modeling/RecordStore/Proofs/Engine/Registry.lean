import RecordStore.Proofs.Engine.Bodies
import RecordStore.Proofs.Schema.Catalog

/-!
Live connections in step with their stores. A connection remembers the version and the collections that
its store had when it was opened; since whatever changes these is refused while the path is held open,
what it remembers stays right. A connection that is still being opened is left out until it holds its path.
-/

namespace RecordStore

open Effect

/-- A connection is open and remembers a store as it is. -/
structure Connection.Remembers (c : Connection) (s : Store) : Prop where
  isOpen : c.isClosed = false
  version : c.version = s.version
  names : c.collectionNames = s.contents.names

namespace Engine

/-- Whoever holds a path open remembers its store. Only connections that are being opened have something
under way, and no listener fails. -/
structure IsInStep (e : Engine) (opening : Nat → Prop) : Prop where
  live : ∀ id ∈ e.live, ¬opening id ∧
    (e.connection id).Remembers (e.store (e.connection id).path)
  idle : ∀ id, ¬opening id → (e.connection id).work = .idle
  quiet : ∀ id, ∀ l ∈ (e.connection id).listeners, l.fails = false
  ordered : ∀ path, (e.store path).contents.IsOrdered

variable {e d : Engine} {opening : Nat → Prop} {id : Nat} {c : Connection} {path : String} {s : Store}

theorem mem_liveAt_iff : id ∈ e.liveAt path ↔ id ∈ e.live ∧ (e.connection id).path = path := by
  rw [liveAt, List.mem_filter, beq_iff_eq]

theorem path_ne_of_liveAt_eq_nil (h : e.liveAt path = []) (hid : id ∈ e.live) :
    (e.connection id).path ≠ path :=
  fun hpath => List.not_mem_nil (h ▸ mem_liveAt_iff.2 ⟨hid, hpath⟩)

/-- With one more connection, which does not yet hold its path open. -/
def connected (e : Engine) (path : String) (version : Nat) : Engine :=
  { e with connections := e.connections ++ [⟨path, version, false, [], [], .idle⟩] }

/-- After a connection was closed that does not hold its path open. -/
def closed (e : Engine) (id : Nat) : Engine :=
  e.setConnection id { e.connection id with isClosed := true, work := .idle }

/-- After a connection was closed. -/
def withdrawn (e : Engine) (id : Nat) : Engine :=
  { e.closed id with live := e.live.filter (· != id) }

/-- After a connection came to hold its path open. -/
def joined (e : Engine) (id : Nat) : Engine :=
  { e.setConnection id { e.connection id with
      collectionNames := (e.store (e.connection id).path).contents.names } with live := e.live ++ [id] }

theorem listeners_closed (e : Engine) (id other : Nat) :
    ((e.closed id).connection other).listeners = (e.connection other).listeners := by
  unfold closed
  exact connection_setConnection_congr Connection.listeners (by rfl) other

theorem connection_connected_self (e : Engine) (path : String) (version : Nat) :
    (e.connected path version).connection e.connections.length =
      ⟨path, version, false, [], [], .idle⟩ := by
  rw [connection, connected, List.getElem?_concat_length]
  rfl

theorem connection_connected (e : Engine) (path : String) (version id : Nat) :
    (e.connected path version).connection id = e.connection id ∨ id = e.connections.length ∧
      (e.connected path version).connection id = ⟨path, version, false, [], [], .idle⟩ := by
  by_cases hid : id = e.connections.length
  · exact .inr ⟨hid, hid ▸ connection_connected_self e path version⟩
  · left
    rw [connection, connection, connected, List.getElem?_append]
    split
    · rfl
    · next hle =>
      rw [List.getElem?_eq_none (Nat.le_of_not_lt hle), List.getElem?_eq_none]
      exact Nat.le_sub_of_add_le (by rw [List.length_singleton]; omega)

namespace IsInStep

/-- Transactions, notices and whoever waits do not count. -/
theorem congr (h : e.IsInStep opening) (hs : d.stores = e.stores) (hc : d.connections = e.connections)
    (hl : d.live = e.live) : d.IsInStep opening where
  live id hid := by
    rw [connection_congr hc, store_congr hs]
    exact h.live id (hl ▸ hid)
  idle id hid := by
    rw [connection_congr hc]
    exact h.idle id hid
  quiet id := by
    rw [connection_congr hc]
    exact h.quiet id
  ordered path := by
    rw [store_congr hs]
    exact h.ordered path

theorem lt_of_mem_live (h : e.IsInStep opening) (hid : id ∈ e.live) : id < e.connections.length :=
  lt_of_isClosed_eq_false (h.live id hid).2.isOpen

/-- A connection that is replaced is one that is being opened, or what counts of it stays. -/
theorem setConnection (h : e.IsInStep opening)
    (hlive : ¬opening id → c.path = (e.connection id).path ∧ c.isClosed = (e.connection id).isClosed ∧
      c.version = (e.connection id).version ∧
      c.collectionNames = (e.connection id).collectionNames ∧ c.work = (e.connection id).work)
    (hquiet : ∀ l ∈ c.listeners, l.fails = false) : (e.setConnection id c).IsInStep opening where
  live other hother := by
    obtain ⟨hopening, hremembers⟩ := h.live other hother
    refine ⟨hopening, ?_⟩
    rcases connection_setConnection e id c other with heq | ⟨rfl, heq⟩
    · rw [heq]
      exact hremembers
    · obtain ⟨hpath, hclosed, hversion, hnames, _⟩ := hlive hopening
      rw [heq, hpath]
      exact ⟨hclosed.trans hremembers.isOpen, hversion.trans hremembers.version,
        hnames.trans hremembers.names⟩
  idle other hother := by
    rcases connection_setConnection e id c other with heq | ⟨rfl, heq⟩
    · rw [heq]
      exact h.idle other hother
    · rw [heq, (hlive hother).2.2.2.2]
      exact h.idle other hother
  quiet other := by
    rcases connection_setConnection e id c other with heq | ⟨rfl, heq⟩
    · rw [heq]
      exact h.quiet other
    · rw [heq]
      exact hquiet
  ordered := h.ordered

/-- A store is replaced only while nobody holds its path open. -/
theorem keep (h : e.IsInStep opening) (hfree : e.liveAt path = []) (hs : s.contents.IsOrdered) :
    (e.keep path s).IsInStep opening where
  live id hid := by
    obtain ⟨hopening, hremembers⟩ := h.live id hid
    refine ⟨hopening, ?_⟩
    change (e.connection id).Remembers ((e.keep path s).store (e.connection id).path)
    rw [store_keep_of_ne (path_ne_of_liveAt_eq_nil hfree hid)]
    exact hremembers
  idle := h.idle
  quiet := h.quiet
  ordered other := by
    by_cases hpath : other = path
    · rw [hpath, store_keep_self]
      exact hs
    · rw [store_keep_of_ne hpath]
      exact h.ordered other

theorem forget (h : e.IsInStep opening) (hfree : e.liveAt path = []) :
    (e.forget path).IsInStep opening where
  live id hid := by
    obtain ⟨hopening, hremembers⟩ := h.live id hid
    refine ⟨hopening, ?_⟩
    change (e.connection id).Remembers ((e.forget path).store (e.connection id).path)
    rw [store_forget, if_neg (path_ne_of_liveAt_eq_nil hfree hid)]
    exact hremembers
  idle := h.idle
  quiet := h.quiet
  ordered other := by
    rw [store_forget]
    split
    · exact List.Pairwise.nil
    · exact h.ordered other

/-- A connection that no longer holds its path open does not count. -/
theorem withdrawn (h : e.IsInStep opening) (id : Nat) : (e.withdrawn id).IsInStep opening where
  live other hother := by
    obtain ⟨hlive, hne⟩ := List.mem_filter.1 hother
    have hconnection : (e.withdrawn id).connection other = e.connection other :=
      connection_setConnection_of_ne (bne_iff_ne.1 hne)
    rw [hconnection]
    exact h.live other hlive
  idle other hother := by
    rcases connection_setConnection e id _ other with heq | ⟨_, heq⟩
    · exact (congrArg Connection.work heq).trans (h.idle other hother)
    · exact congrArg Connection.work heq
  quiet other l hl := by
    rw [show ((e.withdrawn id).connection other).listeners = (e.connection other).listeners from
      listeners_closed e id other] at hl
    exact h.quiet other l hl
  ordered := h.ordered

/-- A connection that is given up before it held its path open is forgotten. -/
theorem closed (h : e.IsInStep (· = id)) (hopen : (e.connection id).isClosed = false) :
    (e.closed id).IsInStep fun _ => False where
  live other hother := by
    obtain ⟨hne, hremembers⟩ := h.live other hother
    have hconnection : (e.closed id).connection other = e.connection other :=
      connection_setConnection_of_ne hne
    rw [hconnection]
    exact ⟨not_false, hremembers⟩
  idle other _ := by
    by_cases hother : other = id
    · rw [hother]
      exact congrArg Connection.work (connection_setConnection_self hopen)
    · exact (congrArg Connection.work (connection_setConnection_of_ne hother)).trans
        (h.idle other hother)
  quiet other l hl := by
    rw [listeners_closed] at hl
    exact h.quiet other l hl
  ordered := h.ordered

/-- A connection that was opened at the version of its store comes to hold its path open. -/
theorem joined (h : e.IsInStep (· = id)) (hopen : (e.connection id).isClosed = false)
    (hversion : (e.connection id).version = (e.store (e.connection id).path).version)
    (hidle : (e.connection id).work = .idle) : (e.joined id).IsInStep fun _ => False := by
  have hself : (e.joined id).connection id = { e.connection id with
      collectionNames := (e.store (e.connection id).path).contents.names } :=
    connection_setConnection_self hopen
  have hne {other : Nat} (hother : other ≠ id) :
      (e.joined id).connection other = e.connection other := connection_setConnection_of_ne hother
  refine ⟨fun other hother => ⟨not_false, ?_⟩, fun other _ => ?_, fun other l hl => ?_, h.ordered⟩
  · rcases List.mem_append.1 hother with hlive | hlast
    · obtain ⟨hopening, hremembers⟩ := h.live other hlive
      rw [hne hopening]
      exact hremembers
    · -- the names were read from the store at this moment
      rw [List.mem_singleton.1 hlast, hself]
      exact ⟨hopen, hversion, rfl⟩
  · by_cases hother : other = id
    · rw [hother, hself]
      exact hidle
    · rw [hne hother]
      exact h.idle other hother
  · by_cases hother : other = id
    · rw [hother, hself] at hl
      exact h.quiet id l hl
    · rw [hne hother] at hl
      exact h.quiet other l hl

/-- A connection that is made is being opened at first. -/
theorem connected (h : e.IsInStep fun _ => False) (path : String) (version : Nat) :
    (e.connected path version).IsInStep (· = e.connections.length) where
  live id hid := by
    have hlt := h.lt_of_mem_live hid
    refine ⟨Nat.ne_of_lt hlt, ?_⟩
    have hconnection : (e.connected path version).connection id = e.connection id :=
      connection_append_of_lt hlt _
    rw [hconnection]
    exact (h.live id hid).2
  idle id hid := by
    rcases connection_connected e path version id with heq | ⟨hlast, _⟩
    · rw [heq]
      exact h.idle id not_false
    · exact absurd hlast hid
  quiet id := by
    rcases connection_connected e path version id with heq | ⟨_, heq⟩
    · rw [heq]
      exact h.quiet id
    · rw [heq]
      exact nofun
  ordered := h.ordered

end IsInStep

end Engine

/-! ### Connections -/

namespace Action

variable {e d : Engine} {path : String}

theorem connection_run (id : Nat) (e : Engine) : connection id e = .ok (e.connection id) e := rfl

theorem get_run (e : Engine) : (get : Action Engine) e = .ok e e := rfl

theorem announce_run (hquiet : ∀ id, ∀ l ∈ (e.connection id).listeners, l.fails = false)
    (new : Option Nat) (ids : List Nat) :
    ∃ notices, announce new ids e = .ok () { e with notices := notices } := by
  induction ids generalizing e with
  | nil => exact ⟨e.notices, rfl⟩
  | cons id rest ih =>
      unfold announce
      rw [bind_of_ok (connection_run id e), bind_of_ok (dispatch_run (hquiet id) _)]
      exact ih hquiet

/-- A path that nobody holds open may change its version. -/
theorem checkBlockers_of_free (hfree : e.liveAt path = []) (old : Nat) (new : Option Nat)
    (callback : Option String) : checkBlockers path old new callback e = .ok () e := by
  unfold checkBlockers
  have hnobody : announce new [] e = .ok () e := rfl
  rw [bind_of_ok (get_run e), hfree, bind_of_ok hnobody]
  refine (bind_of_ok (get_run e) _).trans ?_
  rw [hfree]
  rfl

/-- While somebody holds a path open it is refused to change its version, after all that hold it were
told. -/
theorem checkBlockers_of_live (hquiet : ∀ id, ∀ l ∈ (e.connection id).listeners, l.fails = false)
    (hlive : e.liveAt path ≠ []) (old : Nat) (new : Option Nat) (callback : Option String) :
    ∃ notices waiters, checkBlockers path old new callback e =
      .error (.store (.blocked path old new)) { e with notices := notices, waiters := waiters } := by
  obtain ⟨notices, htold⟩ := announce_run hquiet new (e.liveAt path)
  have hheld : (!(Engine.liveAt { e with notices := notices } path).isEmpty) = true := by
    rw [Bool.not_eq_true', Bool.eq_false_iff]
    exact fun hempty => hlive (List.isEmpty_iff.1 hempty)
  refine ⟨notices, e.waiters ++ callback.toList.map fun label => (path, label), ?_⟩
  unfold checkBlockers
  rw [bind_of_ok (get_run e), bind_of_ok htold]
  refine (bind_of_ok (get_run _) _).trans ?_
  exact congrFun (if_pos hheld) _

theorem release_run (path : String) (e : Engine) : ∃ waiters notices, release path e =
    .ok () { e with waiters := waiters, notices := notices } := by
  unfold release
  rw [bind_of_ok (get_run e)]
  cases (e.liveAt path).isEmpty with
  | true => exact ⟨_, _, rfl⟩
  | false => exact ⟨e.waiters, e.notices, rfl⟩

theorem close_of_closed {id : Nat} (h : (e.connection id).isClosed = true) : close id e = .ok () e := by
  unfold close
  rw [bind_of_ok (connection_run id e), h]
  rfl

theorem close_of_open {id : Nat} (h : (e.connection id).isClosed = false) : ∃ waiters notices,
    close id e = .ok () { e.withdrawn id with waiters := waiters, notices := notices } := by
  obtain ⟨waiters, notices, hrelease⟩ := release_run (e.connection id).path (e.withdrawn id)
  refine ⟨waiters, notices, ?_⟩
  unfold close
  rw [bind_of_ok (connection_run id e), h]
  exact hrelease

theorem deleteStore_of_free (hfree : e.liveAt path = []) (callback : Option String) :
    deleteStore path callback e = .ok (e.store path).version (e.forget path) := by
  unfold deleteStore
  rw [bind_of_ok (get_run e), bind_of_ok (checkBlockers_of_free hfree _ none callback), modify_bind]
  rfl

theorem deleteStore_of_live (hquiet : ∀ id, ∀ l ∈ (e.connection id).listeners, l.fails = false)
    (hlive : e.liveAt path ≠ []) (callback : Option String) : ∃ notices waiters,
    deleteStore path callback e = .error (.store (.blocked path (e.store path).version none))
      { e with notices := notices, waiters := waiters } := by
  obtain ⟨notices, waiters, hblocked⟩ :=
    checkBlockers_of_live hquiet hlive (e.store path).version none callback
  refine ⟨notices, waiters, ?_⟩
  unfold deleteStore
  rw [bind_of_ok (get_run e), bind_of_error hblocked]

/-! ### Listeners -/

variable {opening : Nat → Prop} {stores : List (String × Store)}

/-- A new listener that does not fail leaves all in step. -/
theorem keeps_addListener_isInStep (id : Nat) (event : Value) :
    (addListener id event false).Keeps fun e => e.IsInStep opening ∧ e.stores = stores := by
  refine keeps_bind (keeps_eventType event) fun type => ?_
  refine ensures_bind ensures_get fun e he => ?_
  refine keeps_bind (meets_set ?_) fun _ => keeps_pure _
  have hcounted : Engine.IsInStep { e with listenerCount := e.listenerCount + 1 } opening :=
    he.1.congr rfl rfl rfl
  refine ⟨hcounted.setConnection (fun _ => ⟨rfl, rfl, rfl, rfl, rfl⟩) fun l hl => ?_, he.2⟩
  rcases List.mem_append.1 hl with hl | hl
  · exact he.1.quiet id l hl
  · rw [List.mem_singleton.1 hl]

theorem keeps_removeListener_isInStep (id : Nat) (event : Value) (serial : Nat) :
    (removeListener id event serial).Keeps fun e => e.IsInStep opening ∧ e.stores = stores := by
  refine keeps_bind (keeps_eventType event) fun type => ?_
  refine keeps_modify fun e he => ⟨he.1.setConnection (fun _ => ⟨rfl, rfl, rfl, rfl, rfl⟩) ?_, he.2⟩
  exact fun l hl => he.1.quiet id l (List.mem_of_mem_filter hl)

end Action
end RecordStore
