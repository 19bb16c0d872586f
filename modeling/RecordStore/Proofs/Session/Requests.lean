import RecordStore.Proofs.Session.Soundness

/-!
Requests of factories. A connection that a registry finds is shared; else a store is opened in the engine, on
a connection of its own. However a request ends, all that was shared before is as it was, but for one
connection: that whose session is closed again since the name of a collection is taken.
-/

namespace RecordStore

open Effect

/-! ### Hubs in which all is as it was -/

namespace Hub

/-- All that was shared is as it was, in the engine too. -/
structure Carries (h g : Hub) : Prop where
  made : h.connections.length ≤ g.connections.length
  connection : ∀ id < h.connections.length, g.connection id = h.connection id
  engine : h.engine.Carries g.engine

/-- A hub goes on soundly, and all that was shared is as it was. -/
structure Spares (F : Factory → Prop) (h g : Hub) : Prop extends Follows F h g, Carries h g

variable {F : Factory → Prop} {h g k : Hub} {A : Nat → Prop} {id : Nat}

theorem carries_self (hs : h.IsSound F) : h.Carries h :=
  ⟨Nat.le_refl _, fun _ _ => rfl, Engine.carries_self hs.atRest⟩

/-- Where a connection is placed, it stays. -/
theorem IsPlaced.grows {registry : Nat} {name : String} (hid : h.IsPlaced F registry name id) (hs : h.IsSound F)
    (hg : h.Grows g) : g.IsPlaced F registry name id := by
  obtain ⟨hlt, f, hf, hregistry, hpath⟩ := hid
  exact ⟨Nat.lt_of_lt_of_le hlt hg.made, f, hf, hregistry, by rw [hpath, hg.path_eq hs hlt]⟩

/-- What a registry finds is open, and connected to where one of its factories keeps the store. -/
theorem IsSound.placed_of_get (hs : h.IsSound F) {registry : Nat} {k : RegistryKey}
    (hfound : ((h.registry registry).get h.isClosed k).1 = some id) :
    h.isClosed id = false ∧ h.IsPlaced F registry k.name id := by
  obtain ⟨hopen, entry, hentry, hname, rfl⟩ := Registry.exists_entry_of_get hfound
  refine ⟨hopen, ?_⟩
  rw [← hname]
  exact hs.entries registry entry hentry

theorem spares_self (hs : h.IsSound F) : Spares F h h := ⟨follows_self hs, carries_self hs⟩

/-- Sessions that were open are mirrored where all is as it was. -/
theorem Carries.mirrors (hg : h.Carries g) (hs : h.IsSound F) :
    h.Mirrors (fun id => h.isClosed id = false) g where
  atRest := hs.atRest
  atRest' := hg.engine.atRest
  made _ hopen := lt_of_isClosed_eq_false hopen
  made' _ hopen := Nat.lt_of_lt_of_le (lt_of_isClosed_eq_false hopen) hg.made
  connection _ hopen := hg.connection _ (lt_of_isClosed_eq_false hopen)
  engine id hopen := by
    have hmade := hs.inEngine id (lt_of_isClosed_eq_false hopen)
    refine ⟨hmade, Nat.lt_of_lt_of_le hmade hg.engine.made, hg.engine.connection _ hmade,
      hg.engine.stores _ ?_, hg.engine.listenerCount⟩
    -- an open connection holds its path
    exact List.ne_nil_of_mem (Engine.mem_liveAt_iff.2 ⟨hs.live id hopen, rfl⟩)

end Hub

/-- Closing changes no store. -/
theorem Action.leavesOthers_of_close {e d : Engine} {db : Nat} (he : e.IsAtRest)
    (hclose : Action.close db e = .ok () d) :
    e.LeavesOthers db d ∧ d.stores = e.stores ∧ d.listenerCount = e.listenerCount := by
  cases hclosed : (e.connection db).isClosed with
  | true =>
      cases (close_of_closed hclosed).symm.trans hclose
      exact ⟨(Engine.leavesHeld_self he db).toLeavesOthers, rfl, rfl⟩
  | false =>
      obtain ⟨waiters, notices, hrun⟩ := close_of_open hclosed
      cases hrun.symm.trans hclose
      exact ⟨(leavesOthers_withdrawn he db).congr rfl rfl rfl, rfl, rfl⟩

namespace Hub

variable {F : Factory → Prop} {h g k : Hub} {A : Nat → Prop} {id registry : Nat} {r : Registry} {e : Engine}

theorem Mirrors.mono {B : Nat → Prop} (hM : h.Mirrors A g) (hBA : ∀ id, B id → A id) : h.Mirrors B g where
  atRest := hM.atRest
  atRest' := hM.atRest'
  made id hid := hM.made id (hBA id hid)
  made' id hid := hM.made' id (hBA id hid)
  connection id hid := hM.connection id (hBA id hid)
  engine id hid := hM.engine id (hBA id hid)

section Closing

variable (hclose : Action.close (g.connection id).db g.engine = .ok () e)

include hclose

/-- A connection that is closed, also in the engine, leaves the hub sound. -/
theorem Follows.closing (hg : Follows F h g) (hid : id < g.connections.length)
    (hr : r.entries ⊆ (g.registry registry).entries) (log : List LogEvent) :
    Follows F h { (g.marked id).setRegistry registry r with engine := e, log := log } := by
  have hmarked : Follows F h (g.marked id) := hg.setConnection rfl fun _ => rfl
  have hregistry : Follows F h ((g.marked id).setRegistry registry r) :=
    hmarked.setRegistry fun entry hentry => .inl (hr hentry)
  have hconnection := connection_marked hid
  have hleaves := (Action.leavesOthers_of_close hg.sound.atRest hclose).1
  have hdb : ((g.marked id).connection id).db = (g.connection id).db := by rw [hconnection]
  rw [← hdb] at hleaves
  have hengine := hregistry.withOthers hleaves (Nat.lt_of_lt_of_eq hid List.length_set.symm) fun hopen => by
    change ((g.marked id).connection id).isClosed = false at hopen
    rw [hconnection] at hopen
    cases hopen
  exact hengine.noting log _ _

/-- Whatever is connected otherwise is mirrored still when a connection is closed. -/
theorem Mirrors.closing (hM : h.Mirrors A g) (hA : ∀ other, A other → other ≠ id ∧
    (h.connection other).db ≠ (g.connection id).db) (log : List LogEvent) :
    h.Mirrors A { (g.marked id).setRegistry registry r with engine := e, log := log } := by
  obtain ⟨hleaves, hstores, hcount⟩ := Action.leavesOthers_of_close hM.atRest' hclose
  refine ⟨hM.atRest, hleaves.atRest, hM.made, ?_, ?_, ?_⟩
  · intro other hother
    exact Nat.lt_of_lt_of_eq (hM.made' other hother) List.length_set.symm
  · intro other hother
    exact (connection_setConnection_of_ne (hA other hother).1).trans (hM.connection other hother)
  · intro other hother
    have hwas := hM.engine other hother
    refine ⟨hwas.made, hleaves.made ▸ hwas.made', ?_, ?_, hcount.trans hwas.listenerCount⟩
    · exact (hleaves.others _ (hA other hother).2).trans hwas.connection
    · exact (Engine.store_congr hstores _).trans hwas.store

end Closing

/-- Only the engine and the log have changed. -/
def Within (h : Hub) (Q : Engine → Prop) (g : Hub) : Prop :=
  ∃ e log, g = { h with engine := e, log := log } ∧ Q e

/-- A request that is kept, while whoever was there goes on in the engine. -/
theorem Within.spares (hg : h.Within h.engine.Carries g) (hs : h.IsSound F) : Spares F h g := by
  obtain ⟨e, log, rfl, he⟩ := hg
  exact ⟨((follows_self hs).withCarries he).noting log _ _, Nat.le_refl _, fun _ _ => rfl, he⟩

theorem Spares.noting (hg : Spares F h g) (log : List LogEvent) (schemaCalls : Nat)
    (handlers : List (Nat × String)) :
    Spares F h { g with log := log, schemaCalls := schemaCalls, handlers := handlers } :=
  ⟨hg.toFollows.noting log schemaCalls handlers, hg.made, hg.connection, hg.engine⟩

theorem Spares.keep (hg : Spares F h g) {r : Request} (hr : F r.factory) :
    Spares F h { g with retries := g.retries ++ [⟨r, none⟩] } := by
  refine ⟨hg.toFollows.withRetries fun retry hretry => ?_, hg.made, hg.connection, hg.engine⟩
  rcases List.mem_append.1 hretry with hwas | hlast
  · exact hg.sound.retries retry hwas
  · rw [List.mem_singleton.1 hlast]
    exact hr

/-- With one more shared connection, to a connection of the engine. -/
def sharing (h : Hub) (name : String) (db : Nat) : Hub :=
  { h with connections := h.connections ++ [⟨name, (h.engine.connection db).version, db, false, 0, []⟩] }

theorem connection_sharing_of_lt (name : String) (db : Nat) (hid : id < h.connections.length) :
    (h.sharing name db).connection id = h.connection id := by
  rw [connection, sharing, List.getElem?_append_left hid]
  rfl

theorem connection_sharing_self (h : Hub) (name : String) (db : Nat) :
    (h.sharing name db).connection h.connections.length =
      ⟨name, (h.engine.connection db).version, db, false, 0, []⟩ := by
  rw [connection, sharing, List.getElem?_concat_length]
  rfl

theorem lt_length_sharing (h : Hub) (name : String) (db : Nat) :
    h.connections.length < (h.sharing name db).connections.length := by
  rw [sharing, List.length_append]
  exact Nat.lt_succ_self _

end Hub

open Hub

theorem Task.register_of_insert {h : Hub} {registry id owner : Nat} {k : RegistryKey} {r : Registry}
    (hinsert : (h.registry registry).insert h.isClosed k id = (owner, r)) :
    Task.register registry k id h = .ok owner (h.setRegistry registry r) := by
  change EStateM.Result.ok ((h.registry registry).insert h.isClosed k id).1
    (h.setRegistry registry ((h.registry registry).insert h.isClosed k id).2) = _
  rw [hinsert]

/-! ### Opening a store in the engine -/

namespace Factory

variable {F : Factory → Prop} {h g : Hub} {f : Factory} {name mark path : String} {version : Value}

/-- Asking for a schema is counted, and nothing else. -/
theorem keeps_schemaOf {P : Hub → Prop} (hP : ∀ g n, P g → P { g with schemaCalls := n })
    (source : SchemaSource) : (schemaOf source).Keeps P := by
  have hread (v : Value) : Keeps P (do
      let schema ← ofExcept (Schema.ofValue v)
      return some schema) :=
    keeps_bind (keeps_ofExcept _) fun _ => keeps_pure _
  cases source with
  | value v => exact meets_ite (fun _ => keeps_pure _) fun _ => hread v
  | supplier result =>
      exact keeps_bind (keeps_modify fun g hg => hP g _ hg) fun _ => keeps_bind (keeps_ofExcept _) hread

/-- The upgrade of an opening goes on in its transaction; that it failed is only noted. -/
theorem meets_upgrade {E : Hub → Prop} (schema : Option Schema) (name : String) (o : Action.Opening) (h : Hub)
    (path : String) : (upgrade schema name o).Meets (h.Within (o.IsBegun h.engine path))
      (fun _ => h.Within (o.IsBegun h.engine path)) E := by
  cases o with
  | current id => exact meets_pure fun _ hg => hg
  | upgrade id tx old new =>
      cases schema with
      | none => exact meets_pure fun _ hg => hg
      | some schema =>
          refine meets_attempt fun g hg => ?_
          obtain ⟨e, log, rfl, he⟩ := hg
          have hkeeps := schema.keeps_reconcile_begun h.engine path id tx old new ⟨e, []⟩ he
          unfold reconcile
          dsimp only
          cases hrun : schema.reconcile tx ⟨e, []⟩ with
          | ok u s =>
              rw [hrun] at hkeeps
              exact ⟨s.engine, _, rfl, hkeeps⟩
          | error f s =>
              rw [hrun] at hkeeps
              exact ⟨s.engine, _, rfl, hkeeps⟩

/-- Opening a store either lets a newcomer hold the place that the factory has for the store, or fails. -/
theorem meets_connect (hs : h.IsSound F) (f : Factory) (name : String) (version : Value)
    (schema : Option Schema) (mark : String) :
    (f.connect name version schema mark).Meets (· = h)
      (fun db g => db = h.engine.connections.length ∧ ∃ path, f.config.pathFor (.text name) = .ok path ∧
        h.Within (h.engine.HasArrived path) g)
      (h.Within h.engine.Carries) := by
  have hself : h.Within h.engine.Carries h := ⟨h.engine, h.log, rfl, Engine.carries_self hs.atRest⟩
  unfold connect
  cases hpath : f.config.pathFor (.text name) with
  | error e =>
      refine meets_fail (meets_throw e ?_)
      rintro _ rfl
      exact hself
  | ok path =>
      have hbegin : (Task.engine (Action.beginOpen path version (some mark))).Meets (· = h)
          (fun o => h.Within (o.IsBegun h.engine path)) (h.Within h.engine.Carries) := by
        refine meets_focus (Action.meets_beginOpen_atRest hs.atRest path version (some mark)) ?_ ?_ ?_
        · rintro _ rfl
          rfl
        · rintro _ o e rfl he
          exact ⟨e, _, rfl, he⟩
        · rintro _ e rfl he
          exact ⟨e, _, rfl, he⟩
      refine meets_bind_of_ok rfl (meets_bind hbegin fun o => ?_)
      refine meets_bind (meets_upgrade schema name o h path) fun result => meets_focus (o.meets_conclude hs.atRest path result) ?_ ?_ ?_
      · rintro _ ⟨e, log, rfl, he⟩
        exact he
      · rintro _ db e ⟨_, log, rfl, _⟩ ⟨hdb, he⟩
        exact ⟨hdb, path, rfl, e, log, rfl, he⟩
      · rintro _ e ⟨_, log, rfl, _⟩ he
        exact ⟨e, log, rfl, he⟩

/-- Sharing first makes the connection, and then asks the registry for the owner of the key. -/
theorem share_run (f : Factory) (name : String) (version : Value) (db : Nat) (g : Hub) :
    f.share name version db g = (do
      let owner ← Task.register f.registry ⟨name, version⟩ g.connections.length
      if owner = g.connections.length then
        Task.log (.sessionOpened name (g.engine.connection db).version (g.engine.connection db).collectionNames)
      else
        Task.modifyConnection g.connections.length fun c => { c with isClosed := true }
        Task.engine (Action.close db)
        Task.log (.connectionReused name version)
      return owner) (g.sharing name db) := rfl

/-- A failure that reaches the engine's side is wrapped, and a request that is held up is kept. -/
theorem meets_held {α : Type} {Q : α → Hub → Prop} {t : Task α} (hs : h.IsSound F)
    (ht : t.Meets (· = h) Q (h.Within h.engine.Carries)) {request : Request} (hrequest : F request.factory)
    (name : String) (number : Option Nat) (blocked : StoreFault → Failure) :
    (held request name number blocked t).Meets (· = h) Q (Spares F h) := by
  refine meets_tryCatch ht fun failure => ?_
  have hpassed (failure : Failure) : (throw failure : Task α).Meets (h.Within h.engine.Carries) Q
      (Spares F h) := meets_throw failure fun g hg => hg.spares hs
  split
  · refine meets_bind (Q := fun _ => Spares F h) (meets_modify fun g hg => (hg.spares hs).noting _ _ _)
      fun _ => ?_
    exact meets_bind (Q := fun _ => Spares F h) (meets_modify fun g hg => hg.keep hrequest) fun _ =>
      keeps_throw _
  · exact hpassed _

/-- A connection that is shared where another one has the key is closed again. -/
theorem share_of_found {db owner : Nat} {r : Registry} (hinsert : (g.registry f.registry).insert
    (g.sharing name db).isClosed ⟨name, version⟩ g.connections.length = (owner, r))
    (howner : owner ≠ g.connections.length) :
    ∃ e log, Action.close db g.engine = .ok () e ∧ f.share name version db g = .ok owner
      { ((g.sharing name db).marked g.connections.length).setRegistry f.registry r with
        engine := e, log := log } := by
  obtain ⟨e, hclose⟩ := Action.exists_close_run db g.engine
  refine ⟨e, g.log ++ [.connectionReused name version], hclose, (share_run f name version db g).trans ?_⟩
  have hengine : Task.engine (Action.close db)
      (((g.sharing name db).setRegistry f.registry r).marked g.connections.length) = .ok ()
        { ((g.sharing name db).setRegistry f.registry r).marked g.connections.length with engine := e } :=
    focus_of_ending (r := .ok ()) hclose
  rw [bind_of_ok (Task.register_of_insert hinsert), if_neg howner]
  exact (bind_of_ok hengine _).trans rfl

/-- A connection that is shared where none has the key is registered. -/
theorem share_of_none {db : Nat} {r : Registry} (hinsert : (g.registry f.registry).insert
    (g.sharing name db).isClosed ⟨name, version⟩ g.connections.length = (g.connections.length, r)) :
    ∃ log, f.share name version db g = .ok g.connections.length
      { (g.sharing name db).setRegistry f.registry r with log := log } := by
  refine ⟨g.log ++ [.sessionOpened name (g.engine.connection db).version
    (g.engine.connection db).collectionNames], (share_run f name version db g).trans ?_⟩
  rw [bind_of_ok (Task.register_of_insert hinsert), if_pos rfl]
  rfl

/-- What an opening comes upon: an open connection to where a factory keeps the store, which is a new one or
which the registry has found. -/
structure Obtains (F : Factory → Prop) (f : Factory) (name : String) (version : Value) (h : Hub) (id : Nat)
    (g : Hub) : Prop where
  spares : Spares F h g
  isOpen : g.isClosed id = false
  placed : g.IsPlaced F f.registry name id
  origin : h.connections.length ≤ id ∨ ((h.registry f.registry).get h.isClosed ⟨name, version⟩).1 = some id

/-- A newcomer in the engine is shared, unless somebody else has come to share the store meanwhile. -/
theorem meets_share (hs : h.IsSound F) (hf : F f) {path : String}
    (hpath : f.config.pathFor (.text name) = .ok path) (version : Value) :
    (f.share name version h.engine.connections.length).Meets (h.Within (h.engine.HasArrived path))
      (f.Obtains F name version h) fun _ => False := by
  rintro _ ⟨e, log, rfl, he⟩
  let g : Hub := { h with engine := e, log := log }
  let db := h.engine.connections.length
  have hother (id : Nat) (hid : id < h.connections.length) : (g.sharing name db).connection id = h.connection id :=
    connection_sharing_of_lt (h := g) name db hid
  have hown := connection_sharing_self g name db
  have hshared : Follows F h (g.sharing name db) :=
    (((follows_self hs).withCarries he.toCarries).noting log _ _).share (he.atRest.live _ he.newcomer)
      (fun id hid => Nat.ne_of_lt (hs.inEngine id hid)) fun _ => he.newcomer
  -- whoever is registered was there before, so that the newcomer makes no difference to the registry
  have hget : (h.registry f.registry).get (g.sharing name db).isClosed ⟨name, version⟩ =
      (h.registry f.registry).get h.isClosed ⟨name, version⟩ :=
    Registry.get_congr fun entry hentry =>
      congrArg SharedConnection.isClosed (hother _ (hs.entries _ entry hentry).1)
  have hrest := Registry.entries_get_subset (h.registry f.registry) h.isClosed ⟨name, version⟩
  have hcases := Registry.insert_cases (h.registry f.registry) (g.sharing name db).isClosed ⟨name, version⟩
    h.connections.length
  rw [hget] at hcases
  rcases hcases with ⟨owner, hfound, hinsert⟩ | ⟨_, hinsert⟩
  · -- somebody has the key, and the newcomer is closed again
    obtain ⟨hopen, hwas⟩ := hs.placed_of_get hfound
    have howner := hwas.1
    obtain ⟨d, log', hclose, hrun⟩ := share_of_found (g := g) (f := f) hinsert (Nat.ne_of_lt howner)
    rw [hrun]
    have hgone := hshared.closing (by rw [hown]; exact hclose) (lt_length_sharing g name db) hrest log'
    have hstays (id : Nat) (hid : id < h.connections.length) :
        ((g.sharing name db).marked h.connections.length).connection id = h.connection id :=
      (connection_setConnection_of_ne (Nat.ne_of_lt hid)).trans (hother id hid)
    obtain ⟨hleaves, hstores, hcount⟩ := Action.leavesOthers_of_close he.atRest hclose
    refine ⟨⟨hgone, hgone.grows.made, hstays, ?_⟩, ?_, ?_, .inr hfound⟩
    · exact he.toCarries.leave hs.atRest (Nat.le_refl _) hleaves hcount fun _ => Engine.store_congr hstores _
    · exact (congrArg SharedConnection.isClosed (hstays _ howner)).trans hopen
    · exact hwas.grows hs hgone.grows
  · obtain ⟨log', hrun⟩ := share_of_none (g := g) (f := f) hinsert
    rw [hrun]
    have hplaced : (g.sharing name db).IsPlaced F f.registry name h.connections.length := by
      refine ⟨lt_length_sharing g name db, f, hf, rfl, ?_⟩
      rw [Hub.path, hown, hpath]
      exact congrArg Except.ok he.path.symm
    refine ⟨⟨(hshared.setRegistry fun entry hentry => ?_).noting log' _ _, hshared.grows.made, hother,
      he.toCarries⟩, ?_, hplaced, .inl (Nat.le_refl _)⟩
    · rcases List.mem_append.1 hentry with hwas | hlast
      · exact .inl (hrest hwas)
      · rw [List.mem_singleton.1 hlast]
        exact .inr hplaced
    · exact congrArg SharedConnection.isClosed hown

/-! ### Making the session -/

/-- How a request for a session ends: it is yielded, or all that was shared is as it was. Only when the name
of a collection is taken is a connection closed, which is a new one or which the registry has found. -/
inductive Ends (F : Factory → Prop) (f : Factory) (name : String) (version : Value) (h : Hub) :
    Except Failure Session → Hub → Prop
  | yielded {s : Session} {g : Hub} (hg : f.Obtains F name version h s.connection g) : Ends F f name version h (.ok s) g
  | failed {e : Failure} {g : Hub} (hg : Spares F h g) : Ends F f name version h (.error e) g
  | collided {taken : String} {id : Nat} {g : Hub} (horigin : h.connections.length ≤ id ∨
        ((h.registry f.registry).get h.isClosed ⟨name, version⟩).1 = some id) (hg : Follows F h g)
      (hM : h.Mirrors (fun other => h.isClosed other = false ∧ other ≠ id) g) :
    Ends F f name version h (.error (.nameCollision taken)) g

theorem Ends.follows {r : Except Failure Session} (hr : f.Ends F name version h r g) : Follows F h g := by
  cases hr with
  | yielded hg => exact hg.spares.toFollows
  | failed hg => exact hg.toFollows
  | collided _ hg _ => exact hg

/-- A session is made of what was obtained, or its connection is closed since a name is taken. -/
theorem exists_make_run (hs : h.IsSound F) {id : Nat} (hid : f.Obtains F name version h id g) (proxies : Bool) :
    ∃ r k, Session.make id f.registry proxies g = ending r k ∧ f.Ends F name version h r k := by
  cases proxies with
  | false => exact ⟨.ok ⟨id, f.registry, []⟩, g, rfl, .yielded hid⟩
  | true =>
      have hhub : Task.hub g = .ok g g := rfl
      unfold Session.make
      rw [if_neg (by decide), bind_of_ok hhub]
      cases hfind : (g.collectionNames id).find? Member.isReserved with
      | none => exact ⟨.ok ⟨id, f.registry, g.collectionNames id⟩, g, rfl, .yielded hid⟩
      | some taken =>
          obtain ⟨e, r, log, hclose, hr, hrun⟩ := Session.close_run (s := ⟨id, f.registry, []⟩) hid.isOpen
          refine ⟨.error (.nameCollision taken), _, bind_of_ok hrun _, .collided hid.origin
            (hid.spares.toFollows.closing hclose hid.placed.1 hr log) (Mirrors.closing hclose ?_ ?_ log)⟩
          · exact (hid.spares.mirrors hs).mono fun _ hother => hother.1
          · rintro other ⟨hopen, hne⟩
            have hother := lt_of_isClosed_eq_false hopen
            refine ⟨hne, fun hdb => hne ?_⟩
            rw [← hid.spares.connection other hother] at hdb
            exact hid.spares.sound.apart other (Nat.lt_of_lt_of_le hother hid.spares.made) id hid.placed.1 hdb

/-! ### Opening and deleting -/

/-- The job of an opening for which no connection was found. -/
def opening (f : Factory) (name : String) (version : Value) (source : SchemaSource) (proxies : Bool)
    (schema : Option Schema) : Task Session := do
  let mark ← Request.nextMark
  let db ← held (.openSession f name version source proxies) name (some (versionNumber version))
    (Failure.blockedOpen (.text name) (versionNumber version)) (f.connect name version schema mark)
  let id ← f.share name version db
  Session.make id f.registry proxies

theorem openSession_enter (f : Factory) (name : String) (version : Value) (source : SchemaSource)
    (proxies : Bool) : (f.openSession name version source proxies).enter = (do
      ofExcept (RegistryKey.check ⟨name, version⟩)
      match ← Task.lookup f.registry ⟨name, version⟩ with
      | some id => do
        Task.log (.connectionReused name version)
        return .finished (← Session.make id f.registry proxies)
      | none => do
        let schema ← schemaOf source
        return .waiting (f.opening name version source proxies schema)) := rfl

theorem exists_opening_run (hs : h.IsSound F) (hf : F f) (name : String) (version : Value)
    (source : SchemaSource) (proxies : Bool) (schema : Option Schema) : ∃ r k,
    f.opening name version source proxies schema h = ending r k ∧ f.Ends F name version h r k := by
  have hmark : Request.nextMark h = .ok (toString h.retries.length) h := rfl
  have hrequest : F (Request.openSession f name version source proxies).factory := hf
  have hconnect := meets_held hs (meets_connect hs f name version schema (toString h.retries.length)) hrequest
    name (some (versionNumber version)) (Failure.blockedOpen (.text name) (versionNumber version)) h rfl
  unfold opening
  rw [bind_of_ok hmark]
  cases hrun : held (.openSession f name version source proxies) name (some (versionNumber version))
      (Failure.blockedOpen (.text name) (versionNumber version))
      (f.connect name version schema (toString h.retries.length)) h with
  | error e g =>
      rw [hrun] at hconnect
      exact ⟨.error e, g, bind_of_error hrun _, .failed hconnect⟩
  | ok db g =>
      rw [hrun] at hconnect
      obtain ⟨rfl, path, hpath, hg⟩ := hconnect
      have hshare := meets_share hs hf hpath version g hg
      rw [bind_of_ok hrun]
      cases hshared : f.share name version h.engine.connections.length g with
      | error e k =>
          rw [hshared] at hshare
          exact hshare.elim
      | ok id k =>
          rw [hshared] at hshare
          rw [bind_of_ok hshared]
          exact exists_make_run hs hshare proxies

/-- An opening ends at once, or is left to a job; up to then nothing is lost that was shared. -/
theorem openSession_course (hs : h.IsSound F) (hf : F f) (name : String) (version : Value)
    (source : SchemaSource) (proxies : Bool) :
    (∃ r g, (f.openSession name version source proxies).enter h = ending (r.map Turn.finished) g ∧
      f.Ends F name version h r g) ∨
    ∃ job g, (f.openSession name version source proxies).enter h = .ok (.waiting job) g ∧ Spares F h g ∧
      ∀ k, k.IsSound F → ∃ r l, job k = ending r l ∧ f.Ends F name version k r l := by
  have hself := spares_self hs
  rw [openSession_enter]
  cases hkey : RegistryKey.check ⟨name, version⟩ with
  | error e => exact .inl ⟨.error e, h, bind_of_error rfl _, .failed hself⟩
  | ok u =>
      let looked := h.setRegistry f.registry ((h.registry f.registry).get h.isClosed ⟨name, version⟩).2
      have hlooked : Spares F h looked :=
        ⟨hself.toFollows.setRegistry fun entry hentry => .inl (Registry.entries_get_subset _ _ _ hentry),
          hself.made, hself.connection, hself.engine⟩
      have hlookup : Task.lookup f.registry ⟨name, version⟩ h =
          .ok ((h.registry f.registry).get h.isClosed ⟨name, version⟩).1 looked := rfl
      have hpassed : (ofExcept (.ok u) : Task Unit) h = .ok u h := rfl
      rw [bind_of_ok hpassed, bind_of_ok hlookup]
      cases hfound : ((h.registry f.registry).get h.isClosed ⟨name, version⟩).1 with
      | some id =>
          obtain ⟨hopen, hplaced⟩ := hs.placed_of_get hfound
          have hobtained : f.Obtains F name version h id
              { looked with log := looked.log ++ [.connectionReused name version] } :=
            ⟨hlooked.noting _ _ _, hopen, hplaced, .inr hfound⟩
          obtain ⟨r, k, hmake, hends⟩ := exists_make_run hs hobtained proxies
          refine .inl ⟨r, k, ?_, hends⟩
          cases r with
          | ok s => exact bind_of_ok hmake _
          | error e => exact bind_of_error hmake _
      | none =>
          have hschema := keeps_schemaOf (P := Spares F h) (fun g n hg => hg.noting _ _ _) source looked hlooked
          cases hrun : schemaOf source looked with
          | error e g =>
              rw [hrun] at hschema
              exact .inl ⟨.error e, g, bind_of_error hrun _, .failed hschema⟩
          | ok schema g =>
              rw [hrun] at hschema
              exact .inr ⟨_, g, bind_of_ok hrun _, hschema,
                fun k hk => exists_opening_run hk hf name version source proxies schema⟩

/-- How an opening ends that is over at once. -/
theorem ends_of_openSession_enter (hs : h.IsSound F) (hf : F f) {source : SchemaSource} {proxies : Bool}
    {r : Except Failure Session}
    (hrun : (f.openSession name version source proxies).enter h = ending (r.map Turn.finished) g) :
    f.Ends F name version h r g := by
  rcases f.openSession_course hs hf name version source proxies with
    ⟨r', g', hrun', hends⟩ | ⟨job, g', hrun', _⟩
  · obtain ⟨hsame, rfl⟩ := ending_inj (hrun'.symm.trans hrun)
    have hr : r' = r := by
      cases r <;> cases r' <;> cases hsame <;> rfl
    exact hr ▸ hends
  · -- what is left to a job is not over
    cases r with
    | ok s => cases hrun'.symm.trans hrun
    | error e => cases hrun'.symm.trans hrun

/-- What an opening has done that is left to a job, and how the job ends. -/
theorem spares_of_openSession_enter (hs : h.IsSound F) (hf : F f) {source : SchemaSource} {proxies : Bool}
    {job : Task Session}
    (hrun : (f.openSession name version source proxies).enter h = .ok (.waiting job) g) :
    Spares F h g ∧ ∀ {r : Except Failure Session} {k l : Hub}, k.IsSound F → job k = ending r l →
      f.Ends F name version k r l := by
  rcases f.openSession_course hs hf name version source proxies with
    ⟨r, g', hrun', _⟩ | ⟨job', g', hrun', hg, hjob⟩
  · cases r with
    | ok s => cases hrun'.symm.trans hrun
    | error e => cases hrun'.symm.trans hrun
  · cases hrun'.symm.trans hrun
    refine ⟨hg, fun {r k l} hk hdone => ?_⟩
    obtain ⟨r', l', hdone', hends⟩ := hjob k hk
    obtain ⟨rfl, rfl⟩ := ending_inj (hdone'.symm.trans hdone)
    exact hends

/-- A deletion is refused for the name, or left to a job that leaves all that was shared. -/
theorem deleteStore_course (h : Hub) (hf : F f) (name : String) :
    (∃ e, (f.deleteStore name).enter h = .error e h) ∨
    ∃ job, (f.deleteStore name).enter h = .ok (.waiting job) h ∧
      ∀ k, k.IsSound F → Spares F k (job.after k) := by
  unfold deleteStore
  cases hpath : f.config.pathFor (.text name) with
  | error e => exact .inl ⟨e, rfl⟩
  | ok path =>
      refine .inr ⟨_, rfl, fun k hk => ?_⟩
      have hrequest : F (Request.deleteStore f name).factory := hf
      have hengine : (Task.engine (Action.deleteStore path (some (toString k.retries.length)))).Meets (· = k)
          (fun _ => k.Within k.engine.Carries) (k.Within k.engine.Carries) := by
        refine meets_focus (Action.meets_deleteStore_atRest hk.atRest path _) ?_ ?_ ?_
        · rintro _ rfl
          rfl
        · rintro _ _ e rfl he
          exact ⟨e, _, rfl, he⟩
        · rintro _ e rfl he
          exact ⟨e, _, rfl, he⟩
      have hheld := meets_held hk hengine hrequest name none (Failure.blockedDelete (.text name))
      refine Meets.after (P := (· = k)) (E := Spares F k) ?_ rfl
      refine meets_bind_of_ok (x := toString k.retries.length) rfl (meets_bind hheld fun old => ?_)
      exact meets_bind (Q := fun _ => Spares F k) (meets_modify fun g hg => (hg.spares hk).noting _ _ _)
        fun _ => keeps_pure _

end Factory

/-! ### Requests -/

namespace Operation

variable {F : Factory → Prop} {h : Hub} {α β : Type} {o : Operation Hub α} {K : Hub → Hub → Prop}

/-- What is made of the yield does not matter to the hub. -/
theorem IsSteadyAt.andThen_pure (ho : o.IsSteadyAt F K h) (f : α → β) :
    (o.andThen fun x => return f x).IsSteadyAt F K h := by
  cases hrun : o.enter h with
  | error e g =>
      have hsame : (o.andThen fun x => return f x).enter h = .error e g := andThen_of_error hrun
      refine ⟨?_, fun {g' k job} hjob _ => ?_⟩
      · rw [after_of_error hsame, ← after_of_error hrun]
        exact ho.enter
      · cases hsame.symm.trans hjob
  | ok t g =>
      cases t with
      | finished x =>
          have hsame : (o.andThen fun x => return f x).enter h = .ok (.finished (f x)) g := bind_of_ok hrun _
          refine ⟨?_, fun {g' k job} hjob _ => ?_⟩
          · rw [after_of_ok hsame, ← after_of_ok hrun]
            exact ho.enter
          · cases hsame.symm.trans hjob
      | waiting job =>
          have hsame : (o.andThen fun x => return f x).enter h =
              .ok (.waiting (job >>= fun x => pure (f x))) g := andThen_of_waiting hrun
          refine ⟨?_, fun {g' k job'} hjob hk => ?_⟩
          · rw [after_of_ok hsame, ← after_of_ok hrun]
            exact ho.enter
          · cases hsame.symm.trans hjob
            rw [after_map job f k]
            exact ho.turn hrun hk

/-- An operation whose turn comes at once. -/
theorem IsSteadyAt.run (ho : o.IsSteadyAt F (Follows F) h) : Follows F h (o.run.after h) := by
  have henter := ho.enter
  unfold Operation.run
  cases hrun : o.enter h with
  | error e g =>
      rw [after_of_error hrun] at henter
      rw [after_bind_of_error hrun]
      exact henter
  | ok t g =>
      rw [after_of_ok hrun] at henter
      rw [after_bind_of_ok hrun]
      cases t with
      | finished x => exact henter
      | waiting job => exact henter.trans (ho.turn hrun (follows_self henter.sound))

end Operation

end RecordStore
