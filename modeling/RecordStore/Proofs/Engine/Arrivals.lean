import RecordStore.Proofs.Engine.Locality
import RecordStore.Proofs.Engine.Openings
import RecordStore.Schema.Reconciliation

/-!
Arrivals. Opening a store in an engine at rest works on a connection of its own, and changes a store only
while nobody holds its path open; so do deletions. Whoever is there already goes on as before, whether the
newcomer comes to hold its path, or is refused, or its upgrade fails.
-/

namespace RecordStore

open Effect

namespace Engine

/-- The connections that were made are as they were, and so are the stores that some of them hold open. -/
structure Carries (e d : Engine) : Prop where
  made : e.connections.length ≤ d.connections.length
  connection : ∀ id < e.connections.length, d.connection id = e.connection id
  live : ∀ id ∈ e.live, id ∈ d.live
  stores : ∀ path, e.liveAt path ≠ [] → d.store path = e.store path
  listenerCount : d.listenerCount = e.listenerCount
  atRest : d.IsAtRest

/-- Besides, the next connection holds a path open. -/
structure HasArrived (e : Engine) (path : String) (d : Engine) : Prop extends Carries e d where
  newcomer : e.connections.length ∈ d.live
  path : (d.connection e.connections.length).path = path

variable {e d d' : Engine} {path : String} {n : Nat}

theorem IsAtRest.holdsMade (he : e.IsAtRest) : e.HoldsMade 0 := ⟨Nat.zero_le _, he.live⟩

theorem carries_self (he : e.IsAtRest) : e.Carries e :=
  ⟨Nat.le_refl _, fun _ _ => rfl, fun _ => id, fun _ _ => rfl, rfl, he⟩

/-- Notices and waiters do not count. -/
theorem Carries.congr (h : e.Carries d) (hc : d'.connections = d.connections) (hs : d'.stores = d.stores)
    (hl : d'.live = d.live) (hn : d'.listenerCount = d.listenerCount) : e.Carries d' where
  made := hc ▸ h.made
  connection id hid := (connection_congr hc id).trans (h.connection id hid)
  live id hid := hl ▸ h.live id hid
  stores path hpath := (store_congr hs path).trans (h.stores path hpath)
  listenerCount := hn.trans h.listenerCount
  atRest := h.atRest.congr hc hl

/-- What is done on a connection that was made later, without touching a store that is held open. -/
theorem Carries.leave (h : e.Carries d) (he : e.IsAtRest) (hn : e.connections.length ≤ n)
    (hd : d.LeavesOthers n d') (hcount : d'.listenerCount = d.listenerCount)
    (hstore : e.liveAt (d.connection n).path ≠ [] →
      d'.store (d.connection n).path = d.store (d.connection n).path) : e.Carries d' where
  made := hd.made.symm ▸ h.made
  connection id hid := (hd.others id (by omega)).trans (h.connection id hid)
  live id hid := by
    have hlt := he.live id hid
    exact (hd.live id (by omega)).2 (h.live id hid)
  stores other hother := by
    by_cases hpath : other = (d.connection n).path
    · subst hpath
      exact (hstore hother).trans (h.stores _ hother)
    · exact (hd.stores other hpath).trans (h.stores other hother)
  listenerCount := hcount.trans h.listenerCount
  atRest := hd.atRest

theorem IsAtRest.connected (he : e.IsAtRest) (path : String) (n : Nat) : (e.connected path n).IsAtRest where
  live id hid := by
    have hlt := he.live id hid
    rw [Engine.connected, List.length_append]
    omega
  idle id := by
    rcases connection_connected e path n id with heq | ⟨_, heq⟩
    · rw [heq]
      exact he.idle id
    · rw [heq]
  quiet id := by
    rcases connection_connected e path n id with heq | ⟨_, heq⟩
    · rw [heq]
      exact he.quiet id
    · rw [heq]
      intro l hl
      cases hl

theorem carries_connected (he : e.IsAtRest) (path : String) (n : Nat) : e.Carries (e.connected path n) where
  made := (spares_connected e path n).made
  connection := (spares_connected e path n).connection
  live _ := id
  stores _ _ := rfl
  listenerCount := rfl
  atRest := he.connected path n

theorem lt_length_connected (e : Engine) (path : String) (n : Nat) :
    e.connections.length < (e.connected path n).connections.length := by
  rw [connected, List.length_append]
  exact Nat.lt_succ_self _

/-- A connection that is given up leaves the others. -/
theorem leavesHeld_closed (he : e.IsAtRest) (n : Nat) : e.LeavesHeld n (e.closed n) :=
  leavesHeld_setConnection he rfl rfl (he.quiet n)

/-- A connection that comes to hold its path open leaves the others. -/
theorem leavesOthers_joined (he : e.IsAtRest) (hn : n < e.connections.length) :
    e.LeavesOthers n (e.joined n) := by
  have hset : e.LeavesHeld n (e.setConnection n { e.connection n with
      collectionNames := (e.store (e.connection n).path).contents.names }) :=
    leavesHeld_setConnection he rfl (he.idle n) (he.quiet n)
  refine ⟨hset.made, hset.others, hset.path, hset.stores, fun id hid => ?_, ?_⟩
  · change id ∈ e.live ++ [n] ↔ id ∈ e.live
    rw [List.mem_append, List.mem_singleton]
    exact or_iff_left hid
  · refine ⟨fun id hid => ?_, hset.atRest.idle, hset.atRest.quiet⟩
    rcases List.mem_append.1 hid with hlive | hlast
    · exact hset.atRest.live id hlive
    · rw [List.mem_singleton.1 hlast]
      exact hset.made ▸ hn

/-- A newcomer comes to hold its path open. -/
theorem Carries.hasArrived (h : e.Carries d) (he : e.IsAtRest) (hn : e.connections.length < d.connections.length)
    (hpath : (d.connection e.connections.length).path = path) :
    e.HasArrived path (d.joined e.connections.length) where
  toCarries := h.leave he (Nat.le_refl _) (leavesOthers_joined h.atRest hn) rfl fun _ => rfl
  newcomer := List.mem_append_right _ (List.mem_singleton.2 rfl)
  path := ((leavesOthers_joined h.atRest hn).path).trans hpath

end Engine

/-! ### Openings -/

namespace Action

/-- An opening has begun in an engine that was at rest: the next connection was made, and a transaction may
have begun on it to upgrade a store that nobody holds open. -/
def Opening.IsBegun (e : Engine) (path : String) : Opening → Engine → Prop
  | .current id, d => id = e.connections.length ∧ ∃ n, d = e.connected path n
  | .upgrade id tx _ n, d => id = e.connections.length ∧ e.liveAt path = [] ∧
    ∃ w, (e.connected path n).IsUnderWay e.connections.length tx w d

variable {e d : Engine} {path : String} {n : Nat}

section

variable (he : e.IsAtRest)

include he

theorem carries_refused (path : String) (n : Nat) (notices : List Notice) (waiters : List (String × String)) :
    e.Carries (Engine.closed { e.connected path n with notices := notices, waiters := waiters }
      e.connections.length) := by
  have hcarries : e.Carries { e.connected path n with notices := notices, waiters := waiters } :=
    (Engine.carries_connected he path n).congr rfl rfl rfl rfl
  exact hcarries.leave he (Nat.le_refl _) (Engine.leavesHeld_closed hcarries.atRest _).toLeavesOthers rfl
    fun _ => rfl

/-- An upgrade of a store that nobody holds open begins. -/
theorem beginUpgrade_of_free (hfree : e.liveAt path = []) (old n : Nat) (callback : Option String) :
    ∃ d, beginUpgrade e.connections.length path old n callback (e.connected path n) =
        .ok (.upgrade e.connections.length e.transactions.length old n) d ∧
      Opening.IsBegun e path (.upgrade e.connections.length e.transactions.length old n) d := by
  have hself := Engine.connection_connected_self e path n
  obtain ⟨d, hbegin, _, hd⟩ :=
    begin_of_atRest (he.connected path n) (congrArg Connection.isClosed hself) [] .versionchange
  refine ⟨d, ?_, rfl, hfree, _, hd⟩
  have hchecked := checkBlockers_of_free
    (((Engine.spares_connected e path n).liveAt_eq he.holdsMade path).trans hfree) old (some n) callback
  have hmake : make e.connections.length [] .versionchange (e.connected path n) =
      .ok e.transactions.length (e.upgradeMade path n) := rfl
  unfold beginUpgrade
  rw [bind_of_ok hchecked, bind_of_ok hmake]
  exact bind_of_ok hbegin _

/-- An opening is refused or begins, and whoever is there goes on. -/
theorem meets_beginOpen_atRest (path : String) (version : Value) (callback : Option String) :
    (beginOpen path version callback).Meets (· = e) (fun o d => o.IsBegun e path d) e.Carries := by
  intro d hd
  rw [hd]
  by_cases hvalid : ∃ n : Nat, 1 ≤ n ∧ version = .int n
  · obtain ⟨n, hn, rfl⟩ := hvalid
    rw [beginOpen_run hn]
    rcases Nat.lt_trichotomy n (e.store path).version with hlower | hcurrent | hhigher
    · rw [if_pos hlower]
      exact Engine.carries_self he
    · rw [if_neg (by omega), if_pos hcurrent]
      exact ⟨rfl, n, rfl⟩
    · rw [if_neg (by omega), if_neg (by omega)]
      by_cases hfree : e.liveAt path = []
      · obtain ⟨d, hbegun, hd⟩ := beginUpgrade_of_free he hfree (e.store path).version n callback
        rw [tryCatch_of_ok hbegun]
        exact hd
      · have hlive : (e.connected path n).liveAt path ≠ [] := by
          rw [(Engine.spares_connected e path n).liveAt_eq he.holdsMade path]
          exact hfree
        obtain ⟨notices, waiters, hblocked⟩ := checkBlockers_of_live (he.connected path n).quiet hlive
          (e.store path).version (some n) callback
        have hrefused : beginUpgrade e.connections.length path (e.store path).version n callback
            (e.connected path n) = .error _ _ := bind_of_error hblocked _
        rw [tryCatch_of_error hrefused]
        exact carries_refused he path n notices waiters
  · rw [beginOpen_of_invalid fun n hn hv => hvalid ⟨n, hn, hv⟩]
    exact Engine.carries_self he

section Upgrade

variable {tx : Nat} {w : Work} (hfree : e.liveAt path = [])
  (hd : (e.connected path n).IsUnderWay e.connections.length tx w d)

include hfree hd

/-- However the transaction of an upgrade ends, whoever is there goes on. -/
theorem exists_conclude_of_begun {α : Type} (r : Except Failure α) : ∃ d', conclude tx r d = ending r d' ∧
    e.Carries d' ∧ e.connections.length < d'.connections.length ∧
      (d'.connection e.connections.length).path = path := by
  have hpath := congrArg Connection.path (Engine.connection_connected_self e path n)
  obtain ⟨d', hrun, hleaves, _, hcount, _⟩ := conclude_of_isUnderWay hd (he.connected path n) r
  refine ⟨d', hrun, ?_, hleaves.made.symm ▸ Engine.lt_length_connected e path n, hleaves.path.trans hpath⟩
  -- the store at the path may have changed, but nobody holds it open
  exact (Engine.carries_connected he path n).leave he (Nat.le_refl _) hleaves.toLeavesOthers hcount
    fun hheld => absurd (hpath ▸ hfree) hheld

theorem exists_arrived_of_begun (old : Nat) : ∃ d',
    Opening.conclude (.upgrade e.connections.length tx old n) (.ok ()) d = .ok e.connections.length d' ∧
      e.HasArrived path d' := by
  have hwritten := hd.rework (w.afterWrite fun s => { s with version := n })
  obtain ⟨d', hcommit, hcarries, hmade, hpath⟩ := exists_conclude_of_begun he hfree hwritten (.ok ())
  have hset : attempt (do
      ofExcept (.ok ())
      write tx fun s => { s with version := n }) d =
        .ok (.ok ()) (d.rework tx (w.afterWrite fun s => { s with version := n })) :=
    attempt_of_ending (write_run hd.hasUnderWay _)
  obtain ⟨_, _, hcommitted, hdone⟩ := exists_of_bind (a := commit tx) hcommit
  cases hdone
  refine ⟨d'.joined e.connections.length, ?_, hcarries.hasArrived he hmade hpath⟩
  unfold Opening.conclude
  exact (bind_of_ok hset _).trans (bind_of_ok hcommitted _)

theorem exists_carried_of_begun (old : Nat) (f : Failure) : ∃ d',
    Opening.conclude (.upgrade e.connections.length tx old n) (.error f) d = .error f d' ∧ e.Carries d' := by
  obtain ⟨d', hrun, hcarries, _⟩ := exists_conclude_of_begun (α := Unit) he hfree hd (.error f)
  have hset : attempt (do
      ofExcept (.error f)
      write tx fun s => { s with version := n }) d = .ok (.error f) d :=
    attempt_of_ending (r := .error f) rfl
  have hquiet : ∀ l ∈ (d.connection (d.transaction tx).connection).listeners, l.fails = false := by
    rw [hd.transaction, hd.own]
    exact (he.connected path n).quiet e.connections.length
  obtain ⟨_, habort⟩ : ∃ d, abort tx (some f.className) _ = .ok () d :=
    ⟨_, abort_run hd.hasUnderWay hquiet f.className⟩
  cases (bind_of_ok habort _).symm.trans hrun
  have habandon : abandon e.connections.length tx f.className d = .ok () (d'.closed e.connections.length) :=
    bind_of_ok habort _
  refine ⟨d'.closed e.connections.length, ?_, ?_⟩
  · unfold Opening.conclude
    exact (bind_of_ok hset _).trans (bind_of_ok habandon _)
  · exact hcarries.leave he (Nat.le_refl _) (Engine.leavesHeld_closed hcarries.atRest _).toLeavesOthers rfl
      fun _ => rfl

end Upgrade

/-- What has begun ends: the newcomer holds its path open, or it is given up. -/
theorem Opening.meets_conclude (o : Opening) (path : String) (result : Except Failure Unit) :
    (o.conclude result).Meets (o.IsBegun e path) (fun id d => id = e.connections.length ∧ e.HasArrived path d)
      e.Carries := by
  cases o with
  | current id =>
      rintro _ ⟨rfl, n, rfl⟩
      exact ⟨rfl, (Engine.carries_connected he path n).hasArrived he (Engine.lt_length_connected e path n)
        (congrArg Connection.path (Engine.connection_connected_self e path n))⟩
  | upgrade id tx old n =>
      rintro d ⟨rfl, hfree, w, hd⟩
      cases result with
      | ok u =>
          obtain ⟨d', hconclude, harrived⟩ := exists_arrived_of_begun he hfree hd old
          rw [hconclude]
          exact ⟨rfl, harrived⟩
      | error f =>
          obtain ⟨d', hconclude, hcarries⟩ := exists_carried_of_begun he hfree hd old f
          rw [hconclude]
          exact hcarries

/-- Deleting a store is refused while somebody holds its path open. -/
theorem meets_deleteStore_atRest (path : String) (callback : Option String) :
    (deleteStore path callback).Meets (· = e) (fun _ => e.Carries) e.Carries := by
  intro d hd
  rw [hd]
  by_cases hfree : e.liveAt path = []
  · rw [deleteStore_of_free hfree]
    refine ⟨Nat.le_refl _, fun _ _ => rfl, fun _ => id, fun other hheld => ?_, rfl, he.congr rfl rfl⟩
    rw [Engine.store_forget, if_neg]
    rintro rfl
    exact hheld hfree
  · obtain ⟨notices, waiters, hblocked⟩ := deleteStore_of_live he.quiet hfree callback
    rw [hblocked]
    exact (Engine.carries_self he).congr rfl rfl rfl rfl

end

end Action

/-! ### What an upgrade does -/

section Upgrading

variable {e d : Engine} {db tx : Nat} {w : Work}

/-- A transaction that is under way stays so when it gets another scope. -/
theorem Engine.IsUnderWay.rescope (h : e.IsUnderWay db tx w d) (scope : List String) :
    e.IsUnderWay db tx w (d.rescope tx scope) := by
  have htransaction := transaction_rescope h.active scope
  refine { h with active := ?_, transaction := ?_ }
  · rw [htransaction]
    exact h.active
  · rw [htransaction]
    exact h.transaction

namespace Action

theorem keeps_read_underWay : (read tx).Keeps fun d => ∃ w, e.IsUnderWay db tx w d := by
  rintro d ⟨w, hd⟩
  rw [read_run hd.hasUnderWay]
  exact ⟨_, hd.rework _⟩

theorem keeps_write_underWay (change : Store → Store) :
    (write tx change).Keeps fun d => ∃ w, e.IsUnderWay db tx w d := by
  rintro d ⟨w, hd⟩
  rw [write_run hd.hasUnderWay]
  exact ⟨_, hd.rework _⟩

/-- Obtaining a collection sets the scope to what was read, or to what it was. -/
theorem ensures_openCollection_underWay (name : Value) :
    (openCollection tx name).Ensures (fun d => ∃ w, e.IsUnderWay db tx w d) fun r => r.transaction = tx := by
  rw [openCollection_eq]
  refine meets_of_each fun d ⟨w, hd⟩ => meets_transaction_bind fun t ht => ?_
  subst ht
  have hscope : Meets (· = d) (if (d.transaction tx).mode = .versionchange then collectionNames tx
      else pure (d.transaction tx).scope)
        (fun _ d' => d'.transaction tx = d.transaction tx ∧ ∃ w, e.IsUnderWay db tx w d')
        fun d' => ∃ w, e.IsUnderWay db tx w d' := by
    refine meets_ite (fun _ => ?_) fun _ => meets_pure ?_
    · refine meets_bind_of_ok (read_run hd.hasUnderWay) (meets_pure ?_)
      rintro _ rfl
      exact ⟨rfl, _, hd.rework _⟩
    · rintro _ rfl
      exact ⟨rfl, w, hd⟩
  apply meets_bind hscope
  intro scope
  apply meets_bind (Q := fun _ d => ∃ w, e.IsUnderWay db tx w d)
  · rintro d' ⟨ht, w, hd'⟩
    rw [← ht]
    exact ⟨w, hd'.rescope scope⟩
  · intro _
    have hread : (read tx).Ensures (fun d => ∃ w, e.IsUnderWay db tx w d) fun _ => True :=
      keeps_read_underWay.ensures fun _ _ _ _ => trivial
    exact (ensures_openIn hread name scope).imp (fun _ hd => hd) (fun _ _ hd => ⟨hd.1, hd.2.1⟩) fun _ hd => hd

end Action

namespace Reconciliation

theorem meets_engine {α : Type} {P E : Engine → Prop} {Q : α → Engine → Prop} {a : Action α}
    (h : a.Meets P Q E) :
    (engine a).Meets (fun s => P s.engine) (fun x s => Q x s.engine) fun s => E s.engine :=
  meets_focus h (fun _ hs => hs) (fun _ _ _ _ ht => ht) fun _ _ _ ht => ht

variable {P : Engine → Prop} (hread : (Action.read tx).Keeps P)
  (hwrite : ∀ change, (Action.write tx change).Keeps P)

include hread hwrite

theorem keeps_drop (schema : Schema) (names : List String) :
    (drop schema tx names).Keeps fun s => P s.engine := by
  induction names with
  | nil => exact keeps_pure ()
  | cons name rest ih =>
      refine meets_ite (fun _ => ?_) fun _ => ih
      exact keeps_bind (meets_engine (Action.meets_deleteCollection hread (hwrite _))) fun _ =>
        keeps_bind (keeps_modify fun _ hs => hs) fun _ => ih

theorem keeps_index {r : StoreRef} (hr : r.transaction = tx) (present : List String)
    (specs : List (String × IndexSpec)) : (index r present specs).Keeps fun s => P s.engine := by
  subst hr
  induction specs with
  | nil => exact keeps_pure ()
  | cons entry rest ih =>
      refine meets_ite (fun _ => ?_) fun _ => ih
      have hcreate : (r.createIndex (.text entry.1) (Schema.pathValue entry.2.keyPath)
          (.bool entry.2.unique) (.bool entry.2.multiEntry)).Keeps P :=
        StoreRef.meets_createIndex (fun _ he => he) fun _ => StoreRef.keeps_change hread hwrite
      exact keeps_bind (meets_engine hcreate) fun _ => keeps_bind (keeps_modify fun _ hs => hs) fun _ => ih

/-- A property that reads and writes through the transaction of an upgrade keep, and obtaining collections,
is kept by bringing the store to a schema. -/
theorem keeps_reconcile (hopen : ∀ name, (Action.openCollection tx name).Ensures P fun r => r.transaction = tx)
    (schema : Schema) : (schema.reconcile tx).Keeps fun s => P s.engine := by
  have hnames : (engine (Action.collectionNames tx)).Keeps fun s => P s.engine :=
    meets_engine (Action.keeps_collectionNames hread)
  have hobtain (existing : List String) (name : String) (spec : CollectionSpec) :
      (obtain tx existing name spec).Ensures (fun s => P s.engine) fun r => r.transaction = tx := by
    refine meets_ite (fun _ => meets_engine (hopen _)) fun _ => ?_
    have hcreate : (Action.createCollection tx (.text name) (Schema.pathValue spec.keying.keyPath)
        (.bool spec.keying.autoIncrement)).Ensures P fun r => r.transaction = tx :=
      Action.ensures_createCollection hread (fun _ _ _ => hwrite _) hopen
    exact ensures_bind (meets_engine hcreate) fun r hr =>
      keeps_bind (keeps_modify fun _ hs => hs) fun _ => meets_pure fun _ hs => ⟨hs, hr⟩
  have hcreate (existing : List String) (specs : Schema) :
      (create tx existing specs).Keeps fun s => P s.engine := by
    induction specs with
    | nil => exact keeps_pure ()
    | cons entry rest ih =>
        refine ensures_bind (hobtain existing entry.1 entry.2) fun r hr => ?_
        subst hr
        exact keeps_bind (meets_engine (keeps_bind (StoreRef.keeps_collection hread) fun _ => keeps_pure _))
          fun present => keeps_bind (keeps_index hread hwrite rfl present entry.2.indexes) fun _ => ih
  exact keeps_bind hnames fun names => keeps_bind (keeps_drop hread hwrite schema names) fun _ =>
    keeps_bind hnames fun existing => hcreate existing schema

end Reconciliation

/-- The upgrade of a store that nobody holds open goes on while the store is brought to a schema. -/
theorem Schema.keeps_reconcile_begun (schema : Schema) (e : Engine) (path : String) (id tx old n : Nat) :
    (schema.reconcile tx).Keeps fun s => (Action.Opening.upgrade id tx old n).IsBegun e path s.engine := by
  have hunderWay : (schema.reconcile tx).Keeps fun s =>
      ∃ w, (e.connected path n).IsUnderWay e.connections.length tx w s.engine :=
    Reconciliation.keeps_reconcile Action.keeps_read_underWay Action.keeps_write_underWay
      Action.ensures_openCollection_underWay schema
  rintro s ⟨hid, hfree, hs⟩
  exact (hunderWay.imp (fun _ hs => hs) (fun _ _ hs => ⟨hid, hfree, hs⟩) fun _ hs => ⟨hid, hfree, hs⟩) s hs

end Upgrading

end RecordStore
