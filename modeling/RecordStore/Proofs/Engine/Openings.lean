import RecordStore.Proofs.Engine.Holding

/-!
Openings that fail. An opening works on a connection and a transaction of its own until its upgrade is
committed, and after the version is set nothing can fail any more; so an opening that fails leaves all
that there was, up to a callback that may wait for the path.
-/

namespace RecordStore

open Effect

/-! ### What is left as it was -/

namespace Engine

/-- All that there was in a state is in another: the stores, who holds paths open and who waits for them,
and each connection and transaction that was made. -/
structure Spares (e d : Engine) : Prop where
  stores : d.stores = e.stores
  live : d.live = e.live
  waiters : d.waiters = e.waiters
  made : e.connections.length ≤ d.connections.length
  connection : ∀ id < e.connections.length, d.connection id = e.connection id
  transaction : ∀ tx < e.transactions.length, d.transaction tx = e.transaction tx

/-- Besides, the next transaction works on the next connection. -/
structure WorksApart (e d : Engine) : Prop extends Spares e d where
  apart : (d.transaction e.transactions.length).connection = e.connections.length

/-- The callback of an opening waits for the path if the opening was refused for others who hold it. -/
def awaiting (e : Engine) (path : String) (callback : Option String) (f : Failure) : Engine :=
  match e.liveAt path, f with
  | _ :: _, .store (.blocked _ _ _) =>
    { e with waiters := e.waiters ++ callback.toList.map fun label => (path, label) }
  | _, _ => e

variable {e d : Engine} {path : String} {callback : Option String} {f : Failure}

theorem awaiting_of_free (hfree : e.liveAt path = []) : e.awaiting path callback f = e := by
  unfold awaiting
  rw [hfree]

theorem awaiting_of_live (hlive : e.liveAt path ≠ []) (old : Nat) (new : Option Nat) :
    e.awaiting path callback (.store (.blocked path old new)) =
      { e with waiters := e.waiters ++ callback.toList.map fun label => (path, label) } := by
  obtain ⟨id, rest, hat⟩ := List.exists_cons_of_ne_nil hlive
  unfold awaiting
  rw [hat]

theorem awaiting_of_not_blocked (hf : ∀ path old new, f ≠ .store (.blocked path old new)) :
    e.awaiting path callback f = e := by
  unfold awaiting
  split
  · exact absurd rfl (hf _ _ _)
  · rfl

theorem exists_awaiting_eq (e : Engine) (path : String) (callback : Option String) (f : Failure) :
    ∃ waiters, e.awaiting path callback f = { e with waiters := waiters } := by
  unfold awaiting
  split
  · exact ⟨_, rfl⟩
  · exact ⟨e.waiters, rfl⟩

namespace Spares

theorem setConnection (h : e.Spares d) {id : Nat} (hid : e.connections.length ≤ id) (c : Connection) :
    e.Spares (d.setConnection id c) where
  stores := h.stores
  live := h.live
  waiters := h.waiters
  made := Nat.le_trans h.made (Nat.le_of_eq List.length_set.symm)
  connection other hother :=
    (connection_setConnection_of_ne (by omega)).trans (h.connection other hother)
  transaction := h.transaction

theorem notices (h : e.Spares d) (notices : List Notice) : e.Spares { d with notices := notices } :=
  ⟨h.stores, h.live, h.waiters, h.made, h.connection, h.transaction⟩

theorem leave (h : e.Spares d) (notices : List Notice) (left : List (String × String)) :
    Spares { e with waiters := e.waiters ++ left }
      { d with notices := notices, waiters := d.waiters ++ left } :=
  ⟨h.stores, h.live, congrArg (· ++ left) h.waiters, h.made, h.connection, h.transaction⟩

/-- Who held paths open does so still. -/
theorem liveAt_eq (h : e.Spares d) {n : Nat} (he : e.HoldsMade n) (path : String) :
    d.liveAt path = e.liveAt path := by
  unfold liveAt
  rw [h.live]
  exact List.filter_congr fun id hid => by rw [h.connection id (he.live id hid)]

end Spares

theorem spares_self (e : Engine) : e.Spares e :=
  ⟨rfl, rfl, rfl, Nat.le_refl _, fun _ _ => rfl, fun _ _ => rfl⟩

theorem spares_connected (e : Engine) (path : String) (version : Nat) :
    e.Spares (e.connected path version) where
  stores := rfl
  live := rfl
  waiters := rfl
  made := by
    rw [connected, List.length_append]
    exact Nat.le_add_right _ _
  connection _ hid := connection_append_of_lt hid _
  transaction _ _ := rfl

theorem worksApart_upgradeMade (e : Engine) (path : String) (version : Nat) :
    e.WorksApart (e.upgradeMade path version) where
  toSpares :=
    { spares_connected e path version with
      transaction := fun tx htx => by
        rw [transaction, upgradeMade, List.getElem?_append_left htx]
        rfl }
  apart := congrArg Transaction.connection (Action.transaction_upgradeMade e path version)

theorem isKeptWithin_worksApart (e : Engine) :
    IsKeptWithin e.transactions.length e.WorksApart where
  connection hd := by
    rw [hd.apart]
    exact ⟨hd.setConnection (Nat.le_refl _) _, hd.apart⟩
  transaction {d t} hd ht := by
    have hapart : ((d.setTransaction e.transactions.length t).transaction
        e.transactions.length).connection = e.connections.length := by
      rcases transaction_setTransaction d e.transactions.length t e.transactions.length with
        heq | ⟨_, heq⟩
      · rw [heq, hd.apart]
      · rw [heq, ht, hd.apart]
    refine ⟨⟨hd.stores, hd.live, hd.waiters, hd.made, hd.connection, fun tx htx => ?_⟩, hapart⟩
    rw [transaction_setTransaction_of_ne (Nat.ne_of_lt htx), hd.transaction tx htx]
  notices hd := ⟨hd.notices _, hd.apart⟩

/-! ### A connection that is opened at once -/

theorem connection_joined_connected (e : Engine) (path : String) (version : Nat) :
    ((e.connected path version).joined e.connections.length).connection e.connections.length =
      ⟨path, version, false, (e.store path).contents.names, [], .idle⟩ := by
  have hself := connection_connected_self e path version
  refine (connection_setConnection_self (congrArg Connection.isClosed hself)).trans ?_
  rw [hself]
  rfl

theorem HoldsMade.liveAt_joined {n : Nat} (h : e.HoldsMade n) (path : String) (version : Nat) :
    ((e.connected path version).joined e.connections.length).liveAt path =
      e.liveAt path ++ [e.connections.length] := by
  have hlast := congrArg Connection.path (connection_joined_connected e path version)
  refine (List.filter_append (e.live) [e.connections.length]).trans (congrArg₂ _ ?_ ?_)
  · refine List.filter_congr fun id hid => ?_
    have hpath : (((e.connected path version).joined e.connections.length).connection id).path =
        ((e.connected path version).connection id).path :=
      connection_setConnection_congr Connection.path (by rfl) id
    rw [hpath, show (e.connected path version).connection id = e.connection id from
      connection_append_of_lt (h.live id hid) _]
  · rw [List.filter_cons, hlast]
    simp

end Engine

/-- A callback that goes through its transaction only, which it neither commits nor aborts. -/
def Upgrade.LeavesOpen (u : Upgrade) : Prop :=
  ∀ tx old new, ∀ c ∈ u.calls tx old new, c.through? = some tx

/-! ### Openings -/

namespace Action

variable {e d : Engine} {path : String} {n : Nat}

/-- While others hold the path open an opening fails before its upgrade. They are told, and one of their
listeners may fail; else the callback waits. -/
theorem checkBlockers_of_others (hlive : e.liveAt path ≠ []) (old : Nat) (new : Option Nat)
    (callback : Option String) : ∃ notices,
    checkBlockers path old new callback e =
        .error (.argument .listenerReport) { e with notices := notices } ∨
      checkBlockers path old new callback e = .error (.store (.blocked path old new))
        { e with notices := notices,
                 waiters := e.waiters ++ callback.toList.map fun label => (path, label) } := by
  obtain ⟨notices, r, hr, htold⟩ := onlyTells_announce new (e.liveAt path) e
  refine ⟨notices, ?_⟩
  unfold checkBlockers
  rw [bind_of_ok (get_run e)]
  rcases hr with rfl | rfl
  · right
    have hheld : (!(Engine.liveAt { e with notices := notices } path).isEmpty) = true := by
      rw [Bool.not_eq_true', Bool.eq_false_iff]
      exact fun hempty => hlive (List.isEmpty_iff.1 hempty)
    refine (bind_of_ok htold _).trans ((bind_of_ok (get_run _) _).trans ?_)
    exact congrFun (if_pos hheld) _
  · left
    exact bind_of_error htold _

section Free

variable (he : e.HoldsMade 0) (hfree : e.liveAt path = [])

include he hfree

/-- The transaction of an upgrade is begun apart, unless another one writes. -/
theorem meets_beginUpgrade_apart (old n : Nat) (callback : Option String) :
    (beginUpgrade e.connections.length path old n callback).Meets (· = e.connected path n)
      (fun o d => o = .upgrade e.connections.length e.transactions.length old n ∧ e.WorksApart d)
      e.Spares := by
  have hchecked := checkBlockers_of_free
    (((Engine.spares_connected e path n).liveAt_eq he path).trans hfree) old (some n) callback
  have hmake : make e.connections.length [] .versionchange (e.connected path n) =
      .ok e.transactions.length (e.upgradeMade path n) := rfl
  refine meets_bind_of_ok hchecked (meets_bind_of_ok hmake ?_)
  have hbegin := keeps_begin_within (Engine.isKeptWithin_worksApart e)
  refine meets_bind (hbegin.imp ?_ (fun _ _ hd => hd) fun _ hd => hd.toSpares) fun _ =>
    meets_pure fun _ hd => ⟨rfl, hd⟩
  rintro _ rfl
  exact Engine.worksApart_upgradeMade e path n

/-- An opening that needs an upgrade begins it, unless another transaction writes to the path. -/
theorem beginOpen_of_unheld (hn : (e.store path).version < n) (callback : Option String) :
    beginOpen path (.int n) callback e =
      match (e.upgradeMade path n).hindrance e.transactions.length with
      | none => .ok (.upgrade e.connections.length e.transactions.length (e.store path).version n)
        (e.upgradeBegun path n)
      | some f => .error (.argument f) (((e.upgradeMade path n).setTransaction e.transactions.length
          ⟨e.connections.length, [], .versionchange, true, false⟩).closed e.connections.length) := by
  have hchecked := checkBlockers_of_free
    (((Engine.spares_connected e path n).liveAt_eq he path).trans hfree) (e.store path).version (some n)
      callback
  have hmake : make e.connections.length [] .versionchange (e.connected path n) =
      .ok e.transactions.length (e.upgradeMade path n) := rfl
  have hbegin := begin_run e.transactions.length (e.upgradeMade path n)
  rw [transaction_upgradeMade, if_neg nofun] at hbegin
  rw [beginOpen_run (by omega), if_neg (by omega), if_neg (by omega)]
  have hupgrade : beginUpgrade e.connections.length path (e.store path).version n callback
      (e.connected path n) = (begin e.transactions.length >>= fun _ => pure (Opening.upgrade
        e.connections.length e.transactions.length (e.store path).version n)) (e.upgradeMade path n) := by
    unfold beginUpgrade
    rw [bind_of_ok hchecked, bind_of_ok hmake]
  cases hhindrance : (e.upgradeMade path n).hindrance e.transactions.length with
  | none =>
      rw [hhindrance] at hbegin
      exact tryCatch_of_ok (hupgrade.trans (bind_of_ok hbegin _)) _
  | some f =>
      rw [hhindrance] at hbegin
      exact tryCatch_of_error (hupgrade.trans (bind_of_error hbegin _)) _

end Free

/-- Giving up a connection that was made apart leaves all that there was. -/
theorem spares_discard (e : Engine) : (discard e.connections.length).Keeps e.Spares :=
  keeps_modify fun _ hd => hd.setConnection (Nat.le_refl _) _

/-- Once the version is set, the conclusion of an upgrade cannot fail. -/
theorem meets_conclude_apart (old n : Nat) (result : Except Failure Unit) :
    (Opening.conclude (.upgrade e.connections.length e.transactions.length old n) result).Meets
      e.WorksApart (fun _ _ => True) e.Spares := by
  have hwithin := Engine.isKeptWithin_worksApart e
  have hset : Meets e.WorksApart (do
      ofExcept result
      write e.transactions.length fun s => { s with version := n })
      (fun _ d => e.WorksApart d ∧ ∃ w, d.HasUnderWay e.transactions.length w) e.WorksApart :=
    keeps_bind (keeps_ofExcept result) fun _ => meets_write_within hwithin _
  have hattempt : (attempt (do
      ofExcept result
      write e.transactions.length fun s => { s with version := n })).Meets e.WorksApart
      (fun r d => e.WorksApart d ∧ (r = .ok () → ∃ w, d.HasUnderWay e.transactions.length w))
      e.Spares :=
    meets_tryCatch (F := e.WorksApart)
      (meets_bind hset fun _ => meets_pure fun _ hd => ⟨hd.1, fun _ => hd.2⟩)
      fun _ => meets_pure fun _ hd => ⟨hd, nofun⟩
  refine meets_bind hattempt fun r => ?_
  cases r with
  | ok u =>
      refine meets_of_each fun d ⟨_, hd⟩ => ?_
      obtain ⟨w, hunderWay⟩ := hd rfl
      exact meets_bind_of_ok (commit_run hunderWay) fun _ _ => trivial
  | error f =>
      have habort := (keeps_abort_within hwithin (some f.className)).imp (fun _ hd => hd)
        (fun _ _ hd => hd.toSpares) fun _ hd => hd.toSpares
      refine meets_bind (Q := fun _ => e.Spares) (meets_bind
        (habort.imp (fun _ hd => hd.1) (fun _ _ hd => hd) fun _ hd => hd) fun _ => ?_) fun _ =>
          keeps_throw f
      exact spares_discard e

theorem meets_openStore_of_free (he : e.HoldsMade 0) (hfree : e.liveAt path = [])
    (hn : (e.store path).version < n) {callback : Option String} {u : Upgrade} (hu : u.LeavesOpen) :
    (openStore path (.int n) callback u.act).Meets (· = e) (fun _ _ => True) e.Spares := by
  have hbegin : (beginOpen path (.int n) callback).Meets (· = e) (fun o d =>
      o = .upgrade e.connections.length e.transactions.length (e.store path).version n ∧
        e.WorksApart d) e.Spares := by
    rintro _ rfl
    rw [beginOpen_run (by omega), if_neg (by omega), if_neg (by omega)]
    exact meets_tryCatch (meets_beginUpgrade_apart he hfree _ n callback)
      (fun f => keeps_bind (spares_discard _) fun _ => keeps_throw f) _ rfl
  refine meets_bind hbegin fun o => meets_of_each fun d ⟨ho, hd⟩ => ?_
  subst ho
  -- the calls of the callback stay within its transaction
  have hbody (calls : List EngineCall) (result : Except Failure Unit)
      (hcalls : ∀ c ∈ calls, c.through? = some e.transactions.length) :
      (EngineCall.body calls result).Keeps e.WorksApart := by
    induction calls with
    | nil => exact keeps_ofExcept result
    | cons c rest ih =>
        obtain ⟨hc, hrest⟩ := List.forall_mem_cons.1 hcalls
        exact keeps_bind (keeps_attempt (keeps_run_within (Engine.isKeptWithin_worksApart e) hc))
          fun _ => ih hrest
  have hupgrade : (Opening.upgradeWith (.upgrade e.connections.length e.transactions.length
      (e.store path).version n) u.act).Meets (· = d) (fun _ => e.WorksApart) e.Spares :=
    (keeps_attempt (hbody _ _ (hu _ _ _))).imp (fun _ hg => hg ▸ hd) (fun _ _ hg => hg)
      fun _ hg => hg.toSpares
  exact meets_bind hupgrade fun result => meets_conclude_apart _ n result

/-- An opening that is refused for others who hold the path. -/
theorem spares_of_others (he : e.HoldsMade 0) (hlive : e.liveAt path ≠ [])
    (hn : (e.store path).version < n) {callback : Option String}
    {upgrade : Nat → Nat → Nat → Action Unit} {f : Failure}
    (h : openStore path (.int n) callback upgrade e = .error f d) :
    (e.awaiting path callback f).Spares d := by
  have hconnected := Engine.spares_connected e path n
  have hothers : (e.connected path n).liveAt path ≠ [] := by
    rw [hconnected.liveAt_eq he path]
    exact hlive
  have hrefused {g : Failure} {d' : Engine} (hblocked : checkBlockers path (e.store path).version
      (some n) callback (e.connected path n) = .error g d') :
      g = f ∧ d'.closed e.connections.length = d := by
    have hbegin : beginUpgrade e.connections.length path (e.store path).version n callback
        (e.connected path n) = .error g d' := bind_of_error hblocked _
    have hopen : beginOpen path (.int n) callback e = .error g (d'.closed e.connections.length) := by
      rw [beginOpen_run (by omega), if_neg (by omega), if_neg (by omega)]
      exact tryCatch_of_error hbegin _
    have hended := (bind_of_error hopen _).symm.trans h
    cases hended
    exact ⟨rfl, rfl⟩
  obtain ⟨notices, hreport | hblocked⟩ :=
    checkBlockers_of_others hothers (e.store path).version (some n) callback
  · obtain ⟨rfl, rfl⟩ := hrefused hreport
    rw [Engine.awaiting_of_not_blocked]
    · exact (hconnected.notices notices).setConnection (Nat.le_refl _) _
    · exact fun _ _ _ => nofun
  · obtain ⟨rfl, rfl⟩ := hrefused hblocked
    rw [Engine.awaiting_of_live hlive]
    exact (hconnected.leave notices _).setConnection (Nat.le_refl _) _

/-- An opening at the version of the store lets a new connection hold the path, and cannot fail. -/
theorem openStore_current_run (hn : 1 ≤ n) (hcurrent : n = (e.store path).version)
    (callback : Option String) (upgrade : Nat → Nat → Nat → Action Unit) :
    openStore path (.int n) callback upgrade e =
      .ok e.connections.length ((e.connected path n).joined e.connections.length) := by
  have hbegin := beginOpen_run hn path callback e
  rw [if_neg (by omega), if_pos hcurrent] at hbegin
  unfold openStore
  rw [bind_of_ok hbegin]
  rfl

/-- What is left of an opening that failed: nothing but a callback that may wait. Whoever opens the old
version later comes upon the old store. -/
structure FailedOpening (e : Engine) (path : String) (callback : Option String) (f : Failure)
    (d : Engine) : Prop where
  spares : (e.awaiting path callback f).Spares d
  liveAt : ∀ other, d.liveAt other = e.liveAt other
  reopens : 1 ≤ (e.store path).version → ∀ callback upgrade, ∃ d',
    openStore path (.int (e.store path).version) callback upgrade d = .ok d.connections.length d' ∧
      d'.stores = e.stores ∧ d'.liveAt path = e.liveAt path ++ [d.connections.length] ∧
        (d'.connection d.connections.length).version = (e.store path).version ∧
          (d'.connection d.connections.length).collectionNames = (e.store path).contents.names

theorem failedOpening_of_spares {callback : Option String} {f : Failure} (he : e.HoldsMade 0)
    (hd : (e.awaiting path callback f).Spares d) : FailedOpening e path callback f d := by
  obtain ⟨waiters, hwaiters⟩ := Engine.exists_awaiting_eq e path callback f
  have hmade : d.HoldsMade 0 := by
    refine ⟨Nat.zero_le _, fun id hid => Nat.lt_of_lt_of_le ?_ hd.made⟩
    rw [hd.live, hwaiters] at hid
    rw [hwaiters]
    exact he.live id hid
  have hstores : d.stores = e.stores := by
    rw [hd.stores, hwaiters]
  have hliveAt (other : String) : d.liveAt other = e.liveAt other := by
    rw [hwaiters] at hd
    exact hd.liveAt_eq (n := 0) ⟨Nat.zero_le _, he.live⟩ other
  refine ⟨hd, hliveAt, fun hversion callback upgrade => ?_⟩
  have hstore := Engine.store_congr hstores path
  refine ⟨_, openStore_current_run hversion (congrArg Store.version hstore).symm callback upgrade,
    hstores, ?_, ?_⟩
  · rw [hmade.liveAt_joined, hliveAt]
  · rw [Engine.connection_joined_connected, hstore]
    exact ⟨rfl, rfl⟩

/-- An opening that fails changes nothing, whatever made it fail and however far its upgrade had come. -/
theorem failedOpening_of_error (he : e.IsAttained) {version : Value} {callback : Option String}
    {u : Upgrade} (hu : u.LeavesOpen) {f : Failure}
    (h : openStore path version callback u.act e = .error f d) : FailedOpening e path callback f d := by
  refine failedOpening_of_spares he.holdsMade ?_
  by_cases hvalid : ∃ n : Nat, 1 ≤ n ∧ version = .int n
  · obtain ⟨n, hn, rfl⟩ := hvalid
    rcases Nat.lt_trichotomy n (e.store path).version with hlower | hcurrent | hhigher
    · rw [openStore_of_lower hn hlower] at h
      cases h
      rw [Engine.awaiting_of_not_blocked]
      · exact Engine.spares_self e
      · exact fun _ _ _ => nofun
    · rw [openStore_current_run hn hcurrent] at h
      cases h
    · by_cases hfree : e.liveAt path = []
      · rw [Engine.awaiting_of_free hfree]
        exact (meets_openStore_of_free he.holdsMade hfree hhigher hu).of_error rfl h
      · exact spares_of_others he.holdsMade hfree hhigher h
  · rw [openStore_of_invalid fun n hn hv => hvalid ⟨n, hn, hv⟩] at h
    cases h
    rw [Engine.awaiting_of_not_blocked]
    · exact Engine.spares_self e
    · exact fun _ _ _ => nofun

/-- A store with two equal numbers, which a connection still holds open beside another store. -/
def numbersHeld : Engine :=
  Engine.initial.afterCalls [.beginOpen "path" (.int 1) none,
    .createCollection 0 (.text "numbers") .null (.bool false),
    .put ⟨0, "numbers", ⟨none, false⟩⟩ (.int 5) (.int 1),
    .put ⟨0, "numbers", ⟨none, false⟩⟩ (.int 5) (.int 2),
    .conclude (.upgrade 0 0 0 1) (.ok ()), .close 0, .beginOpen "other" (.int 1) none,
    .conclude (.upgrade 1 1 0 1) (.ok ())]

/-- A callback that adds a number and makes an index, which is refused at the second of two equal
numbers. -/
def numbersUpgrade : Upgrade where
  calls tx _ _ := [.put ⟨tx, "numbers", ⟨none, false⟩⟩ (.int 6) (.int 3),
    .createIndex ⟨tx, "numbers", ⟨none, false⟩⟩ (.text "value") (.text "") (.bool true) (.bool false)]
  result _ _ _ := .error (.store (.duplicateIndexKey "value" (.int 5)))
  concerns tx _ _ c hc := .inl (by
    rcases List.mem_pair.1 hc with rfl | rfl
    · rfl
    · rfl)

/-- The callback fails, and the store has its two numbers as before. -/
theorem failedOpening_of_error_numbers : numbersHeld.IsAttained ∧ numbersUpgrade.LeavesOpen ∧
    ∃ f d, openStore "path" (.int 2) (some "waits") numbersUpgrade.act numbersHeld = .error f d ∧
      FailedOpening numbersHeld "path" (some "waits") f d ∧
        (numbersHeld.store "path").version = 1 ∧
          ((numbersHeld.store "path").contents.get "numbers").records.length = 2 := by
  have hattained : numbersHeld.IsAttained := by
    refine .afterCalls .initial ⟨trivial, trivial, trivial, trivial, ?_, trivial, trivial, ?_, trivial⟩
    · change 0 < (Engine.connections _).length
      decide +kernel
    · change 1 < (Engine.connections _).length
      decide +kernel
  have hleaves : numbersUpgrade.LeavesOpen := by
    intro tx old new c hc
    rcases List.mem_pair.1 hc with rfl | rfl
    · rfl
    · rfl
  obtain ⟨f, d, h⟩ := exists_error_of_result? (a := openStore "path" (.int 2) (some "waits")
    numbersUpgrade.act) (s := numbersHeld) (by decide +kernel)
  exact ⟨hattained, hleaves, f, d, h, failedOpening_of_error hattained hleaves h, by decide +kernel,
    by decide +kernel⟩

end Action
end RecordStore
