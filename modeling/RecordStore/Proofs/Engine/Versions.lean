import RecordStore.Proofs.Engine.Upgrades

/-!
Versions and live connections. Calls that open, close and delete stores follow one another, each on any
path. As long as somebody holds a path open its store is left as it is, so that whoever does so remembers
it rightly; a path that nobody holds open may get a higher version, or lose its store.
-/

namespace RecordStore

open Effect

namespace Engine

variable {e : Engine} {path : String} {version : Nat}

/-- The transaction of an upgrade was made for a new connection. -/
def upgradeMade (e : Engine) (path : String) (version : Nat) : Engine :=
  { e.connected path version with transactions := e.transactions ++
      [⟨e.connections.length, [], .versionchange, false, false⟩] }

/-- An upgrade has begun on a new connection. -/
def upgradeBegun (e : Engine) (path : String) (version : Nat) : Engine :=
  (e.upgradeMade path version).begun e.transactions.length

end Engine

namespace Action

variable {e : Engine} {path : String} {callback : Option String}

theorem connect_run (path : String) (version : Nat) (e : Engine) :
    connect path version e = .ok e.connections.length (e.connected path version) := rfl

theorem beginOpen_run {n : Nat} (hn : 1 ≤ n) (path : String) (callback : Option String) (e : Engine) :
    beginOpen path (.int n) callback e =
      if n < (e.store path).version then .error (.store (.lowerVersion n (e.store path).version)) e
      else if n = (e.store path).version then
        .ok (.current e.connections.length) (e.connected path n)
      else tryCatch (beginUpgrade e.connections.length path (e.store path).version n callback)
        (fun f => do
          discard e.connections.length
          throw f) (e.connected path n) := by
  have hvalid : 1 ≤ (n : Int) := Int.ofNat_le.2 hn
  have hrequested : (pure (n : Int).toNat : Action Nat) e = .ok n e := rfl
  unfold beginOpen
  refine (congrFun (if_pos hvalid) e).trans ?_
  refine (bind_of_ok hrequested _).trans ?_
  refine (bind_of_ok (get_run e) _).trans ?_
  by_cases hlower : n < (e.store path).version
  · refine (congrFun (if_pos hlower) e).trans ?_
    rw [if_pos hlower]
    rfl
  · refine (congrFun (if_neg hlower) e).trans ?_
    refine (bind_of_ok (connect_run path n e) _).trans ?_
    rw [if_neg hlower]
    by_cases hcurrent : n = (e.store path).version
    · refine (congrFun (if_pos hcurrent) _).trans ?_
      rw [if_pos hcurrent]
      rfl
    · refine (congrFun (if_neg hcurrent) _).trans ?_
      rw [if_neg hcurrent]

/-- What is no whole number from 1 on is no version. -/
theorem beginOpen_of_invalid {version : Value} (h : ∀ n : Nat, 1 ≤ n → version ≠ .int n) (path : String)
    (callback : Option String) (e : Engine) :
    beginOpen path version callback e = .error (.argument .version) e := by
  cases version with
  | int n =>
      have hlow : ¬1 ≤ n := fun hn => h n.toNat (by omega) (congrArg Value.int (by omega))
      exact congrFun (if_neg hlow) e
  | _ => rfl

/-! ### The beginning of an upgrade -/

theorem transaction_upgradeMade (e : Engine) (path : String) (version : Nat) :
    (e.upgradeMade path version).transaction e.transactions.length =
      ⟨e.connections.length, [], .versionchange, false, false⟩ := by
  rw [Engine.transaction, Engine.upgradeMade, List.getElem?_concat_length]
  rfl

theorem lt_upgradeMade (e : Engine) (path : String) (version : Nat) :
    e.transactions.length < (e.upgradeMade path version).transactions.length := by
  rw [Engine.upgradeMade, List.length_append]
  exact Nat.lt_succ_self _

theorem transaction_upgradeBegun (e : Engine) (path : String) (version : Nat) :
    (e.upgradeBegun path version).transaction e.transactions.length =
      ⟨e.connections.length, [], .versionchange, true, true⟩ := by
  rw [Engine.upgradeBegun, transaction_begun (lt_upgradeMade e path version),
    transaction_upgradeMade]

section

variable (he : e.IsInStep fun _ => False)

include he

theorem liveAt_connected (path other : String) (version : Nat) :
    (e.connected other version).liveAt path = e.liveAt path := by
  refine List.filter_congr fun id hid => ?_
  rw [show (e.connected other version).connection id = e.connection id from
    Engine.connection_append_of_lt (he.lt_of_mem_live hid) _]

theorem opens_connected (hfree : e.liveAt path = []) (version : Nat) :
    (e.connected path version).Opens e.connections.length path version := by
  have hself := Engine.connection_connected_self e path version
  refine ⟨he.connected path version, (liveAt_connected he path path version).trans hfree, ?_, ?_, ?_, ?_⟩
  all_goals rw [hself]

theorem opens_upgradeMade (hfree : e.liveAt path = []) (version : Nat) :
    (e.upgradeMade path version).Opens e.connections.length path version :=
  (opens_connected he hfree version).congr rfl rfl rfl

theorem begin_upgradeMade (hfree : e.liveAt path = []) (version : Nat) :
    begin e.transactions.length (e.upgradeMade path version) =
      .ok () (e.upgradeBegun path version) := by
  have hopens := opens_upgradeMade he hfree version
  have htransaction := transaction_upgradeMade e path version
  have hidle : ((e.upgradeMade path version).connection e.connections.length).work = .idle :=
    congrArg Connection.work (Engine.connection_connected_self e path version)
  refine begin_of_ready ⟨?_, ?_, ?_, ?_⟩
  · rw [htransaction]
  · rw [htransaction]
    exact hopens.isOpen
  · rw [htransaction]
    exact hidle
  · rw [htransaction]
    exact .inr (hasOtherWriter_eq_false hopens.inStep _)

theorem draft?_upgradeBegun (hfree : e.liveAt path = []) (version : Nat) :
    (e.upgradeBegun path version).draft? e.transactions.length = some (e.store path) := by
  have hopens := opens_upgradeMade he hfree version
  have htransaction := transaction_upgradeMade e path version
  have hunderWay := hasUnderWay_begun (lt_upgradeMade e path version) (by rw [htransaction]; exact hopens.isOpen)
  rw [htransaction, if_neg nofun, hopens.path] at hunderWay
  exact Engine.draft?_eq_some_iff.2 hunderWay

theorem beginOpen_of_free (hfree : e.liveAt path = []) {n : Nat} (hn : (e.store path).version < n)
    (callback : Option String) : beginOpen path (.int n) callback e =
      .ok (.upgrade e.connections.length e.transactions.length (e.store path).version n)
        (e.upgradeBegun path n) := by
  have hmake : make e.connections.length [] .versionchange (e.connected path n) =
      .ok e.transactions.length (e.upgradeMade path n) := rfl
  have hchecked := checkBlockers_of_free ((liveAt_connected he path path n).trans hfree)
    (e.store path).version (some n) callback
  rw [beginOpen_run (by omega), if_neg (by omega), if_neg (by omega)]
  refine tryCatch_of_ok ?_ _
  unfold beginUpgrade
  rw [bind_of_ok hchecked, bind_of_ok hmake, bind_of_ok (begin_upgradeMade he hfree n)]
  rfl

/-- An opening that needs an upgrade runs it to its end if nobody holds the path open. -/
theorem openStore_of_free (hfree : e.liveAt path = []) {n : Nat} (hn : (e.store path).version < n)
    (callback : Option String) (u : Upgrade) :
    ∃ r d, openStore path (.int n) callback u.act e = ending r d ∧ Ends e e.connections.length path n
      (u.result e.transactions.length (e.store path).version n) r d := by
  have hopens : (e.upgradeBegun path n).Opens e.connections.length path n := by
    have hid := congrArg Transaction.connection (transaction_upgradeMade e path n)
    exact (opens_upgradeMade he hfree n).begun hid
  have hs := draft?_upgradeBegun he hfree n
  have htransaction := transaction_upgradeBegun e path n
  have hid := congrArg Transaction.connection htransaction
  have hstarted := congrArg Transaction.isStarted htransaction
  have hbody := attempt_of_ending (EngineCall.body_run
    (u.calls e.transactions.length (e.store path).version n)
    (u.result e.transactions.length (e.store path).version n) (e.upgradeBegun path n))
  -- the callback acts on its own transaction, so that the upgrade goes on or was ended by it
  have hupgrading : (e.upgradeBegun path n).IsUpgrading e.transactions.length (e.store path)
      ((e.upgradeBegun path n).afterCalls (u.calls e.transactions.length (e.store path).version n)) := by
    refine EngineCall.isUpgrading_afterCalls hs (congrArg Transaction.mode htransaction) hstarted ?_
      (u.concerns _ _ _) (Engine.isUpgrading_self hs (he.ordered path))
    rw [hid]
    exact hopens.unheard
  obtain ⟨r, d, hconclude, hends⟩ := conclude_upgrade_run hs hopens hid hstarted rfl
    hupgrading (e.store path).version (u.result e.transactions.length (e.store path).version n)
  refine ⟨r, d, ?_, hends.inStep, hends.others, hends.outcome⟩
  unfold openStore
  rw [bind_of_ok (beginOpen_of_free he hfree hn callback)]
  exact (bind_of_ok hbody _).trans hconclude

/-- An opening that needs an upgrade is refused while somebody holds the path open. -/
theorem openStore_of_live (hlive : e.liveAt path ≠ []) {n : Nat} (hn : (e.store path).version < n)
    (callback : Option String) (u : Upgrade) : ∃ d, openStore path (.int n) callback u.act e =
      .error (.store (.blocked path (e.store path).version (some n))) d ∧
        d.IsInStep (fun _ => False) ∧ d.stores = e.stores := by
  have hconnected := he.connected path n
  have hopen := congrArg Connection.isClosed (Engine.connection_connected_self e path n)
  obtain ⟨notices, waiters, hblocked⟩ := checkBlockers_of_live hconnected.quiet
    (liveAt_connected he path path n ▸ hlive) (e.store path).version (some n) callback
  have hrefused : beginUpgrade e.connections.length path (e.store path).version n callback
      (e.connected path n) = .error _ _ := bind_of_error hblocked _
  have hstep : Engine.IsInStep { e.connected path n with notices := notices, waiters := waiters }
      (· = e.connections.length) := hconnected.congr rfl rfl rfl
  refine ⟨_, ?_, hstep.closed hopen, rfl⟩
  unfold openStore
  refine bind_of_error ?_ _
  rw [beginOpen_run (by omega), if_neg (by omega), if_neg (by omega)]
  exact tryCatch_of_error hrefused _

/-- An opening at the version of the store holds the path open. -/
theorem openStore_of_current {n : Nat} (hn : 1 ≤ n) (hcurrent : n = (e.store path).version)
    (callback : Option String) (u : Upgrade) : ∃ d, openStore path (.int n) callback u.act e =
      .ok e.connections.length d ∧ d.IsInStep (fun _ => False) ∧ d.stores = e.stores := by
  have hself := Engine.connection_connected_self e path n
  refine ⟨(e.connected path n).joined e.connections.length, ?_,
    (he.connected path n).joined ?_ ?_ ?_, rfl⟩
  · unfold openStore
    have hbegin := beginOpen_run hn path callback e
    rw [if_neg (by omega), if_pos hcurrent] at hbegin
    rw [bind_of_ok hbegin]
    rfl
  · rw [hself]
  · rw [hself]
    exact hcurrent
  · rw [hself]

omit he in
/-- An opening at a lower version is refused at once. -/
theorem openStore_of_lower {n : Nat} (hn : 1 ≤ n) (hlower : n < (e.store path).version)
    (callback : Option String) (u : Upgrade) : openStore path (.int n) callback u.act e =
      .error (.store (.lowerVersion n (e.store path).version)) e := by
  have hbegin := beginOpen_run hn path callback e
  rw [if_pos hlower] at hbegin
  unfold openStore
  rw [bind_of_error hbegin]

omit he in
theorem openStore_of_invalid {version : Value} (h : ∀ n : Nat, 1 ≤ n → version ≠ .int n)
    (callback : Option String) (u : Upgrade) :
    openStore path version callback u.act e = .error (.argument .version) e := by
  unfold openStore
  rw [bind_of_error (beginOpen_of_invalid h path callback e)]

/-- How the opening of a path ends, by the version that is asked for and by who holds the path open. -/
inductive EndsOpening (e : Engine) (path : String) (u : Upgrade) :
    Value → Except Failure Nat → Engine → Prop
  | invalid {version : Value} (h : ∀ n : Nat, 1 ≤ n → version ≠ .int n) :
      EndsOpening e path u version (.error (.argument .version)) e
  | lower {n : Nat} (hn : 1 ≤ n) (h : n < (e.store path).version) :
      EndsOpening e path u (.int n) (.error (.store (.lowerVersion n (e.store path).version))) e
  | current {n : Nat} (h : n = (e.store path).version) {d : Engine}
      (hstep : d.IsInStep fun _ => False) (hstores : d.stores = e.stores) :
      EndsOpening e path u (.int n) (.ok e.connections.length) d
  | blocked {n : Nat} (h : (e.store path).version < n) (hlive : e.liveAt path ≠ []) {d : Engine}
      (hstep : d.IsInStep fun _ => False) (hstores : d.stores = e.stores) :
      EndsOpening e path u (.int n)
        (.error (.store (.blocked path (e.store path).version (some n)))) d
  | upgraded {n : Nat} (h : (e.store path).version < n) (hfree : e.liveAt path = [])
      {r : Except Failure Nat} {d : Engine} (hends : Ends e e.connections.length path n
        (u.result e.transactions.length (e.store path).version n) r d) :
      EndsOpening e path u (.int n) r d

theorem openStore_run (path : String) (version : Value) (callback : Option String) (u : Upgrade) :
    ∃ r d, openStore path version callback u.act e = ending r d ∧ EndsOpening e path u version r d := by
  by_cases hvalid : ∃ n : Nat, 1 ≤ n ∧ version = .int n
  · obtain ⟨n, hn, rfl⟩ := hvalid
    rcases Nat.lt_trichotomy n (e.store path).version with hlower | hcurrent | hhigher
    · exact ⟨.error _, e, openStore_of_lower hn hlower callback u, .lower hn hlower⟩
    · obtain ⟨d, hopen, hstep, hstores⟩ := openStore_of_current he hn hcurrent callback u
      exact ⟨.ok _, d, hopen, .current hcurrent hstep hstores⟩
    · by_cases hfree : e.liveAt path = []
      · obtain ⟨r, d, hopen, hends⟩ := openStore_of_free he hfree hhigher callback u
        exact ⟨r, d, hopen, .upgraded hhigher hfree hends⟩
      · obtain ⟨d, hopen, hstep, hstores⟩ := openStore_of_live he hfree hhigher callback u
        exact ⟨.error _, d, hopen, .blocked hhigher hfree hstep hstores⟩
  · have hinvalid : ∀ n : Nat, 1 ≤ n → version ≠ .int n := fun n hn hv => hvalid ⟨n, hn, hv⟩
    exact ⟨.error _, e, openStore_of_invalid hinvalid callback u, .invalid hinvalid⟩

end

end Action

/-! ### Calls one after another -/

/-- A call that opens, closes or deletes a store, or adds a listener that does not fail or removes one. -/
inductive StoreCall where
  | openStore (path : String) (version : Value) (callback : Option String) (upgrade : Upgrade)
  | close (connection : Nat)
  | deleteStore (path : String) (callback : Option String)
  | addListener (connection : Nat) (event : Value)
  | removeListener (connection : Nat) (event : Value) (serial : Nat)

def StoreCall.run : StoreCall → Action Unit
  | openStore path version callback upgrade => do
    let _ ← Action.openStore path version callback upgrade.act
    return ()
  | close connection => Action.close connection
  | deleteStore path callback => do
    let _ ← Action.deleteStore path callback
    return ()
  | addListener connection event => do
    let _ ← Action.addListener connection event false
    return ()
  | removeListener connection event serial => Action.removeListener connection event serial

namespace Engine

/-- The engine as it starts with some stores. -/
def onStores (stores : List (String × Store)) : Engine := { initial with stores := stores }

/-- The engine after some calls, of which each may fail. -/
def afterStoreCalls (e : Engine) (calls : List StoreCall) : Engine :=
  calls.foldl (fun e c => c.run.after e) e

end Engine

/-- The callback of an upgrade fails with a failure of some class. -/
def Upgrade.Raises (u : Upgrade) (errorClass : String) (e : Engine) (path : String) (version : Nat) :
    Prop :=
  ∃ f, u.result e.transactions.length (e.store path).version version = .error f ∧
    f.className = errorClass

/-- Versions, catalogs and live connections in a state, and what a next call may make of them. -/
structure Engine.IsVersioned (e : Engine) : Prop where
  /-- A live connection has the version of its store and knows its catalog, in order. -/
  live : ∀ path, ∀ id ∈ e.liveAt path, (e.connection id).version = (e.store path).version ∧
    (e.connection id).collectionNames = (e.store path).contents.names ∧
      (e.connection id).collectionNames.Pairwise (· < ·)
  /-- Only a deletion that succeeds lowers a version, to 0. -/
  lowered : ∀ (c : StoreCall) path, ((c.run.after e).store path).version < (e.store path).version →
    ((c.run.after e).store path).version = 0 ∧ ∃ callback, c = .deleteStore path callback ∧
      ∃ old d, Action.deleteStore path callback e = .ok old d
  /-- A store changes only while nobody holds its path open. -/
  changed : ∀ (c : StoreCall) path, (c.run.after e).store path ≠ e.store path → e.liveAt path = []
  /-- A lower version is what an opening refuses as such. The failure of a callback is passed on. -/
  lower : ∀ path version callback (u : Upgrade),
    (Action.openStore path version callback u.act).Raises "VersionError" e ↔
      ∃ n : Nat, 1 ≤ n ∧ version = .int n ∧ (n < (e.store path).version ∨
        (e.store path).version < n ∧ e.liveAt path = [] ∧ u.Raises "VersionError" e path n)
  /-- An opening at a higher version is blocked by whoever holds the path open. -/
  blockedOpening : ∀ path (n : Nat) callback (u : Upgrade), (e.store path).version < n →
    ((Action.openStore path (.int n) callback u.act).Raises "BlockedError" e ↔
      e.liveAt path ≠ [] ∨ u.Raises "BlockedError" e path n)
  /-- So is a deletion. -/
  blockedDeletion : ∀ path callback,
    (Action.deleteStore path callback).Raises "BlockedError" e ↔ e.liveAt path ≠ []

variable {e d : Engine}

/-- What a call leaves of a store: all of it, or a version that is not lower, or nothing. What is not as
it was is a store whose path nobody held open. -/
inductive Engine.LeavesStore (e d : Engine) (c : StoreCall) (path : String) : Prop
  | same (h : d.store path = e.store path)
  | raised (hfree : e.liveAt path = []) (h : (e.store path).version ≤ (d.store path).version)
  | deleted (hfree : e.liveAt path = []) (h : (d.store path).version = 0) {callback : Option String}
      (hc : c = .deleteStore path callback)

theorem StoreCall.leavesStore_run (he : e.IsInStep fun _ => False) (c : StoreCall) :
    (c.run.after e).IsInStep (fun _ => False) ∧ ∀ path, e.LeavesStore (c.run.after e) c path := by
  have hsame {d : Engine} (hstores : d.stores = e.stores) (path : String) : e.LeavesStore d c path :=
    .same (Engine.store_congr hstores path)
  cases c with
  | openStore path version callback u =>
      obtain ⟨r, d, hopen, hends⟩ := Action.openStore_run he path version callback u
      rw [show (StoreCall.openStore path version callback u).run.after e = d from after_of_ending hopen]
      cases hends with
      | invalid _ => exact ⟨he, hsame rfl⟩
      | lower _ _ => exact ⟨he, hsame rfl⟩
      | current _ hstep hstores => exact ⟨hstep, hsame hstores⟩
      | blocked _ _ hstep hstores => exact ⟨hstep, hsame hstores⟩
      | @upgraded n hhigher hfree r d hends =>
          refine ⟨hends.inStep, fun other => ?_⟩
          by_cases hother : other = path
          · subst hother
            refine .raised hfree ?_
            rcases hends.outcome with ⟨_, _, hversion⟩ | ⟨hversion, _⟩
            · rw [hversion]
              exact Nat.le_of_lt hhigher
            · rw [hversion]
          · exact .same (hends.others other hother)
  | close id =>
      cases hclosed : (e.connection id).isClosed with
      | true =>
          have hafter : (StoreCall.close id).run.after e = e :=
            (leads_of_ending (r := .ok ()) (Action.close_of_closed hclosed)).after rfl
          rw [hafter]
          exact ⟨he, hsame rfl⟩
      | false =>
          obtain ⟨waiters, notices, hclose⟩ := Action.close_of_open hclosed
          have hafter : (StoreCall.close id).run.after e = _ :=
            (leads_of_ending (r := .ok ()) hclose).after rfl
          rw [hafter]
          exact ⟨(he.withdrawn id).congr rfl rfl rfl, hsame rfl⟩
  | deleteStore path callback =>
      by_cases hfree : e.liveAt path = []
      · have hafter : (StoreCall.deleteStore path callback).run.after e = e.forget path :=
          after_of_ending (r := .ok _) (Action.deleteStore_of_free hfree callback)
        rw [hafter]
        refine ⟨he.forget hfree, fun other => ?_⟩
        by_cases hother : other = path
        · subst hother
          refine .deleted hfree ?_ rfl
          rw [Engine.store_forget, if_pos rfl]
          rfl
        · refine .same ?_
          rw [Engine.store_forget, if_neg hother]
      · obtain ⟨notices, waiters, hblocked⟩ := Action.deleteStore_of_live he.quiet hfree callback
        have hafter : (StoreCall.deleteStore path callback).run.after e = _ :=
          after_of_ending (r := .error _) hblocked
        rw [hafter]
        exact ⟨he.congr rfl rfl rfl, hsame rfl⟩
  | addListener id event =>
      -- listeners are no part of what a connection remembers
      have hkeeps : (Action.addListener id event false).Keeps fun d =>
          d.IsInStep (fun _ => False) ∧ d.stores = e.stores := Action.keeps_addListener_isInStep id event
      obtain ⟨hstep, hstores⟩ := Effect.Meets.after (a := (StoreCall.addListener id event).run)
        (keeps_bind hkeeps fun _ => keeps_pure ()) ⟨he, rfl⟩
      exact ⟨hstep, hsame hstores⟩
  | removeListener id event serial =>
      have hkeeps : (Action.removeListener id event serial).Keeps fun d =>
          d.IsInStep (fun _ => False) ∧ d.stores = e.stores :=
        Action.keeps_removeListener_isInStep id event serial
      obtain ⟨hstep, hstores⟩ := hkeeps.after ⟨he, rfl⟩
      exact ⟨hstep, hsame hstores⟩

/-! ### What openings and deletions refuse -/

/-- An upgrade fails with what its callback fails with, or since that ended the transaction. -/
theorem Action.Ends.raises_iff {a : Action Nat} {id n : Nat} {path : String}
    {result : Except Failure Unit} {r : Except Failure Nat} (ha : a e = ending r d)
    (h : Action.Ends e id path n result r d) {errorClass : String}
    (hclass : errorClass ≠ "TransactionInactiveError") :
    a.Raises errorClass e ↔ ∃ f, result = .error f ∧ f.className = errorClass := by
  rcases h.outcome with ⟨rfl, hresult, _⟩ | ⟨_, f, rfl, hresult⟩
  · refine iff_of_false (Effect.not_raises_of_ok ha errorClass) ?_
    rintro ⟨g, hg, _⟩
    rw [hresult] at hg
    cases hg
  · refine (Effect.raises_of_error ha errorClass).trans ?_
    rcases hresult with hresult | ⟨hresult, rfl⟩
    · constructor
      · exact fun hf => ⟨f, hresult, hf⟩
      · rintro ⟨g, hg, hgclass⟩
        rw [hresult] at hg
        cases hg
        exact hgclass
    · refine iff_of_false (fun hf => hclass hf.symm) ?_
      rintro ⟨g, hg, _⟩
      rw [hresult] at hg
      cases hg

section

variable (he : e.IsInStep fun _ => False)

include he

theorem openStore_raises_version_iff (path : String) (version : Value) (callback : Option String)
    (u : Upgrade) : (Action.openStore path version callback u.act).Raises "VersionError" e ↔
      ∃ n : Nat, 1 ≤ n ∧ version = .int n ∧ (n < (e.store path).version ∨
        (e.store path).version < n ∧ e.liveAt path = [] ∧ u.Raises "VersionError" e path n) := by
  obtain ⟨r, d, hopen, hends⟩ := Action.openStore_run he path version callback u
  cases hends with
  | invalid hinvalid =>
      rw [Effect.raises_of_error hopen]
      refine iff_of_false (by decide) ?_
      rintro ⟨n, hn, hv, _⟩
      exact hinvalid n hn hv
  | @lower n hn hlower =>
      exact iff_of_true ((Effect.raises_of_error hopen _).2 rfl) ⟨n, hn, rfl, .inl hlower⟩
  | current hcurrent _ _ =>
      refine iff_of_false (Effect.not_raises_of_ok hopen _) ?_
      rintro ⟨m, _, ⟨⟩, h⟩
      omega
  | blocked hhigher hlive _ _ =>
      have hclass : "BlockedError" ≠ "VersionError" := by decide
      refine iff_of_false (mt (Effect.raises_of_error hopen _).1 hclass) ?_
      rintro ⟨m, _, ⟨⟩, hlower | ⟨_, hfree, _⟩⟩
      · omega
      · exact hlive hfree
  | @upgraded n hhigher hfree r d hends =>
      rw [hends.raises_iff hopen (by decide)]
      constructor
      · exact fun hu => ⟨n, by omega, rfl, .inr ⟨hhigher, hfree, hu⟩⟩
      · rintro ⟨m, _, ⟨⟩, hlower | ⟨_, _, hu⟩⟩
        · omega
        · exact hu

theorem openStore_raises_blocked_iff {path : String} {n : Nat} (hn : (e.store path).version < n)
    (callback : Option String) (u : Upgrade) :
    (Action.openStore path (.int n) callback u.act).Raises "BlockedError" e ↔
      e.liveAt path ≠ [] ∨ u.Raises "BlockedError" e path n := by
  by_cases hfree : e.liveAt path = []
  · obtain ⟨r, d, hopen, hends⟩ := Action.openStore_of_free he hfree hn callback u
    rw [hends.raises_iff hopen (by decide), hfree, ne_self_iff_false, false_or]
    rfl
  · obtain ⟨d, hopen, _⟩ := Action.openStore_of_live he hfree hn callback u
    exact iff_of_true ((Effect.raises_of_error hopen _).2 rfl) (.inl hfree)

theorem deleteStore_raises_blocked_iff (path : String) (callback : Option String) :
    (Action.deleteStore path callback).Raises "BlockedError" e ↔ e.liveAt path ≠ [] := by
  by_cases hfree : e.liveAt path = []
  · exact iff_of_false (Effect.not_raises_of_ok (Action.deleteStore_of_free hfree callback) _)
      (not_not_intro hfree)
  · obtain ⟨notices, waiters, hblocked⟩ := Action.deleteStore_of_live he.quiet hfree callback
    exact iff_of_true ((Effect.raises_of_error hblocked _).2 rfl) hfree

theorem Engine.IsInStep.isVersioned : e.IsVersioned where
  live path id hid := by
    obtain ⟨hlive, rfl⟩ := mem_liveAt_iff.1 hid
    obtain ⟨_, _, hversion, hnames⟩ := he.live id hlive
    refine ⟨hversion, hnames, ?_⟩
    rw [hnames]
    exact Contents.pairwise_names (he.ordered _)
  lowered c path hlower := by
    cases (StoreCall.leavesStore_run he c).2 path with
    | same h =>
        rw [h] at hlower
        exact absurd hlower (Nat.lt_irrefl _)
    | raised _ h => exact absurd hlower (Nat.not_lt.2 h)
    | @deleted hfree h callback hc =>
        exact ⟨h, callback, hc, _, _, Action.deleteStore_of_free hfree callback⟩
  changed c path hchanged := by
    cases (StoreCall.leavesStore_run he c).2 path with
    | same h => exact absurd h hchanged
    | raised hfree _ => exact hfree
    | deleted hfree _ _ => exact hfree
  lower := openStore_raises_version_iff he
  blockedOpening _ _ callback u hn := openStore_raises_blocked_iff he hn callback u
  blockedDeletion := deleteStore_raises_blocked_iff he

end

namespace Engine

theorem isInStep_onStores {stores : List (String × Store)}
    (h : ∀ path, ((onStores stores).store path).contents.IsOrdered) :
    (onStores stores).IsInStep fun _ => False where
  live := nofun
  idle _ _ := rfl
  quiet _ := nofun
  ordered := h

theorem isInStep_afterStoreCalls {e : Engine} (he : e.IsInStep fun _ => False) (calls : List StoreCall) :
    (e.afterStoreCalls calls).IsInStep fun _ => False := by
  induction calls generalizing e with
  | nil => exact he
  | cons c rest ih => exact ih (StoreCall.leavesStore_run he c).1

/-- A callback that makes a collection. -/
def deskUpgrade : Upgrade where
  calls tx _ _ := [.createCollection tx (.text "desk") .null (.bool true)]
  result _ _ _ := .ok ()
  concerns := by
    intro tx _ _ c hc
    rw [List.mem_singleton.1 hc]
    exact .inl rfl

/-- Two openings of a store, one that is blocked, and a closing. -/
def deskCalls : List StoreCall :=
  [.openStore "path" (.int 2) none deskUpgrade, .openStore "path" (.int 2) none deskUpgrade,
    .openStore "path" (.int 3) none deskUpgrade, .close 0]

end Engine
end RecordStore
