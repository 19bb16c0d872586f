import RecordStore.Proofs.Engine.Arrivals
import RecordStore.Proofs.Session.Mirroring
import RecordStore.Session.Opening

/-!
Sound hubs. Every shared connection has a connection of the engine to itself, which holds its path open as
long as the shared one is open; and a registry finds for a name only what is connected to where one of its
factories keeps the store of that name. A hub goes on soundly through whatever is asked of a session, and
then only the store at the path of the session's connection can have changed.
-/

namespace RecordStore

open Effect

/-- The factory that a request is made of. -/
def Request.factory : Request → Factory
  | openSession f _ _ _ _ => f
  | deleteStore f _ => f

namespace Hub

/-- The path of the store that a shared connection is connected to. -/
def path (h : Hub) (id : Nat) : String := (h.engine.connection (h.connection id).db).path

/-- A connection was made, to where some factory with a registry keeps the store of a name. -/
def IsPlaced (F : Factory → Prop) (h : Hub) (registry : Nat) (name : String) (id : Nat) : Prop :=
  id < h.connections.length ∧
    ∃ f, F f ∧ f.registry = registry ∧ f.config.pathFor (.text name) = .ok (h.path id)

/-- What holds of a hub whenever no job is at work, with the factories that there are. -/
structure IsSound (F : Factory → Prop) (h : Hub) : Prop where
  atRest : h.engine.IsAtRest
  inEngine : ∀ id < h.connections.length, (h.connection id).db < h.engine.connections.length
  apart : ∀ id < h.connections.length, ∀ other < h.connections.length,
    (h.connection id).db = (h.connection other).db → id = other
  live : ∀ id, h.isClosed id = false → (h.connection id).db ∈ h.engine.live
  entries : ∀ registry, ∀ entry ∈ (h.registry registry).entries, h.IsPlaced F registry entry.1.name entry.2
  retries : ∀ r ∈ h.retries, F r.request.factory

/-- What was made stays: each connection with its path, and what is closed stays closed. -/
structure Grows (h g : Hub) : Prop where
  made : h.connections.length ≤ g.connections.length
  db : ∀ id < h.connections.length, (g.connection id).db = (h.connection id).db
  closed : ∀ id < h.connections.length, h.isClosed id = true → g.isClosed id = true
  madeInEngine : h.engine.connections.length ≤ g.engine.connections.length
  pathInEngine : ∀ db < h.engine.connections.length,
    (g.engine.connection db).path = (h.engine.connection db).path

/-- A hub goes on to a sound one. -/
structure Follows (F : Factory → Prop) (h g : Hub) : Prop where
  sound : g.IsSound F
  grows : h.Grows g

variable {F : Factory → Prop} {h g k : Hub} {id : Nat} {c : SharedConnection}

theorem lt_of_isClosed_eq_false (hopen : h.isClosed id = false) : id < h.connections.length := by
  by_contra hge
  rw [isClosed, connection, List.getElem?_eq_none (Nat.le_of_not_lt hge)] at hopen
  cases hopen

theorem grows_self (h : Hub) : h.Grows h :=
  ⟨Nat.le_refl _, fun _ _ => rfl, fun _ _ => id, Nat.le_refl _, fun _ _ => rfl⟩

theorem Grows.trans (hg : h.Grows g) (hk : g.Grows k) : h.Grows k where
  made := Nat.le_trans hg.made hk.made
  db id hid := (hk.db id (Nat.lt_of_lt_of_le hid hg.made)).trans (hg.db id hid)
  closed id hid hclosed := hk.closed id (Nat.lt_of_lt_of_le hid hg.made) (hg.closed id hid hclosed)
  madeInEngine := Nat.le_trans hg.madeInEngine hk.madeInEngine
  pathInEngine db hdb :=
    (hk.pathInEngine db (Nat.lt_of_lt_of_le hdb hg.madeInEngine)).trans (hg.pathInEngine db hdb)

/-- A connection stays connected to its store. -/
theorem Grows.path_eq (hg : h.Grows g) (hs : h.IsSound F) (hid : id < h.connections.length) :
    g.path id = h.path id := by
  unfold path
  rw [hg.db id hid]
  exact hg.pathInEngine _ (hs.inEngine id hid)

theorem follows_self (hs : h.IsSound F) : Follows F h h := ⟨hs, grows_self h⟩

theorem Follows.trans (hg : Follows F h g) (hk : Follows F g k) : Follows F h k :=
  ⟨hk.sound, hg.grows.trans hk.grows⟩

/-! ### What may be done to a sound hub -/

namespace Follows

variable (hg : Follows F h g)

include hg

/-- What is noted does not count. -/
theorem noting (log : List LogEvent) (schemaCalls : Nat) (handlers : List (Nat × String)) :
    Follows F h { g with log := log, schemaCalls := schemaCalls, handlers := handlers } :=
  ⟨⟨hg.sound.atRest, hg.sound.inEngine, hg.sound.apart, hg.sound.live, hg.sound.entries, hg.sound.retries⟩,
    ⟨hg.grows.made, hg.grows.db, hg.grows.closed, hg.grows.madeInEngine, hg.grows.pathInEngine⟩⟩

theorem withRetries {retries : List Retry} (hF : ∀ r ∈ retries, F r.request.factory) :
    Follows F h { g with retries := retries } :=
  ⟨⟨hg.sound.atRest, hg.sound.inEngine, hg.sound.apart, hg.sound.live, hg.sound.entries, hF⟩,
    ⟨hg.grows.made, hg.grows.db, hg.grows.closed, hg.grows.madeInEngine, hg.grows.pathInEngine⟩⟩

/-- A connection changes, but not where it is connected to, and it is not opened again. -/
theorem setConnection (hdb : c.db = (g.connection id).db) (hclosed : g.isClosed id = true → c.isClosed = true) :
    Follows F h (g.setConnection id c) := by
  have hsame (other : Nat) : ((g.setConnection id c).connection other).db = (g.connection other).db :=
    connection_setConnection_congr SharedConnection.db hdb other
  have hpath (other : Nat) : (g.setConnection id c).path other = g.path other := by
    unfold path
    rw [hsame]
    rfl
  have hmade : (g.setConnection id c).connections.length = g.connections.length := List.length_set
  have hstays (other : Nat) (hother : g.isClosed other = true) :
      (g.setConnection id c).isClosed other = true := by
    rcases connection_setConnection g id c other with heq | ⟨rfl, heq⟩
    · rw [isClosed, heq]
      exact hother
    · rw [isClosed, heq]
      exact hclosed hother
  refine ⟨⟨hg.sound.atRest, ?_, ?_, ?_, ?_, hg.sound.retries⟩, ⟨?_, ?_, ?_, hg.grows.madeInEngine,
    hg.grows.pathInEngine⟩⟩
  · intro other hother
    rw [hsame]
    exact hg.sound.inEngine other (hmade ▸ hother)
  · intro other hother another hanother heq
    rw [hsame, hsame] at heq
    exact hg.sound.apart other (hmade ▸ hother) another (hmade ▸ hanother) heq
  · intro other hother
    rw [hsame]
    refine hg.sound.live other (Bool.eq_false_iff.2 fun hwas => ?_)
    rw [hstays other hwas] at hother
    cases hother
  · intro registry entry hentry
    rw [IsPlaced, hmade, hpath]
    exact hg.sound.entries registry entry hentry
  · rw [hmade]
    exact hg.grows.made
  · intro other hother
    rw [hsame]
    exact hg.grows.db other hother
  · exact fun other hother hwas => hstays other (hg.grows.closed other hother hwas)

/-- A registry comes to hold connections that are placed. -/
theorem setRegistry {registry : Nat} {r : Registry} (hr : ∀ entry ∈ r.entries,
    entry ∈ (g.registry registry).entries ∨ g.IsPlaced F registry entry.1.name entry.2) :
    Follows F h (g.setRegistry registry r) := by
  refine ⟨⟨hg.sound.atRest, hg.sound.inEngine, hg.sound.apart, hg.sound.live, ?_, hg.sound.retries⟩,
    ⟨hg.grows.made, hg.grows.db, hg.grows.closed, hg.grows.madeInEngine, hg.grows.pathInEngine⟩⟩
  intro other entry hentry
  rw [Hub.registry, Hub.setRegistry, List.getElem?_set] at hentry
  split at hentry
  · next heq =>
    subst heq
    split at hentry
    · exact (hr entry hentry).elim (hg.sound.entries registry entry) id
    · cases hentry
  · exact hg.sound.entries other entry hentry

/-- The engine goes on, and whoever is open still holds its path. -/
theorem withEngine {e : Engine} (he : e.IsAtRest)
    (hmade : g.engine.connections.length ≤ e.connections.length)
    (hpath : ∀ db < g.engine.connections.length, (e.connection db).path = (g.engine.connection db).path)
    (hlive : ∀ id, g.isClosed id = false → (g.connection id).db ∈ e.live) :
    Follows F h { g with engine := e } := by
  refine ⟨⟨he, ?_, hg.sound.apart, hlive, ?_, hg.sound.retries⟩, ⟨hg.grows.made, hg.grows.db, hg.grows.closed,
    Nat.le_trans hg.grows.madeInEngine hmade, ?_⟩⟩
  · exact fun id hid => Nat.lt_of_lt_of_le (hg.sound.inEngine id hid) hmade
  · intro registry entry hentry
    obtain ⟨hid, f, hf, hregistry, hplace⟩ := hg.sound.entries registry entry hentry
    refine ⟨hid, f, hf, hregistry, hplace.trans (congrArg Except.ok ?_)⟩
    exact (hpath _ (hg.sound.inEngine _ hid)).symm
  · intro db hdb
    exact (hpath db (Nat.lt_of_lt_of_le hdb hg.grows.madeInEngine)).trans (hg.grows.pathInEngine db hdb)

theorem withCarries {e : Engine} (he : g.engine.Carries e) : Follows F h { g with engine := e } :=
  hg.withEngine he.atRest he.made (fun db hdb => congrArg Connection.path (he.connection db hdb))
    fun id hid => he.live _ (hg.sound.live id hid)

/-- What is done on the engine's connection of one that is closed, or lets all hold what they hold. -/
theorem withOthers {e : Engine} (he : g.engine.LeavesOthers (g.connection id).db e)
    (hid : id < g.connections.length) (hlive : g.isClosed id = false → (g.connection id).db ∈ e.live) :
    Follows F h { g with engine := e } := by
  refine hg.withEngine he.atRest (Nat.le_of_eq he.made.symm) (fun db _ => ?_) fun other hother => ?_
  · by_cases hdb : db = (g.connection id).db
    · rw [hdb]
      exact he.path
    · rw [he.others db hdb]
  · by_cases heq : other = id
    · rw [heq] at hother ⊢
      exact hlive hother
    · -- no two connections share one of the engine's
      refine (he.live _ fun hdb => heq ?_).2 (hg.sound.live other hother)
      exact hg.sound.apart other (lt_of_isClosed_eq_false hother) id hid hdb

/-- One more connection is shared, which is nobody else's. -/
theorem share (hdb : c.db < g.engine.connections.length)
    (hapart : ∀ id < g.connections.length, (g.connection id).db ≠ c.db)
    (hlive : c.isClosed = false → c.db ∈ g.engine.live) :
    Follows F h { g with connections := g.connections ++ [c] } := by
  have hwas {id : Nat} (hid : id < g.connections.length) :
      connection { g with connections := g.connections ++ [c] } id = g.connection id := by
    rw [connection, List.getElem?_append_left hid]
    rfl
  have hlast : connection { g with connections := g.connections ++ [c] } g.connections.length = c := by
    rw [connection, List.getElem?_concat_length]
    rfl
  have hcases {id : Nat} (hid : id < (g.connections ++ [c]).length) :
      id < g.connections.length ∨ id = g.connections.length := by
    rw [List.length_append, List.length_singleton] at hid
    omega
  refine ⟨⟨hg.sound.atRest, ?_, ?_, ?_, ?_, hg.sound.retries⟩, ⟨?_, ?_, ?_, hg.grows.madeInEngine,
    hg.grows.pathInEngine⟩⟩
  · intro id hid
    rcases hcases hid with hlt | rfl
    · rw [hwas hlt]
      exact hg.sound.inEngine id hlt
    · rw [hlast]
      exact hdb
  · intro id hid other hother heq
    rcases hcases hid with hlt | rfl
    · rw [hwas hlt] at heq
      rcases hcases hother with hlt' | rfl
      · rw [hwas hlt'] at heq
        exact hg.sound.apart id hlt other hlt' heq
      · rw [hlast] at heq
        exact absurd heq (hapart id hlt)
    · rw [hlast] at heq
      rcases hcases hother with hlt' | rfl
      · rw [hwas hlt'] at heq
        exact absurd heq.symm (hapart other hlt')
      · rfl
  · intro id hopen
    rcases hcases (lt_of_isClosed_eq_false hopen) with hlt | rfl
    · rw [isClosed, hwas hlt] at hopen
      rw [hwas hlt]
      exact hg.sound.live id hopen
    · rw [isClosed, hlast] at hopen
      rw [hlast]
      exact hlive hopen
  · intro registry entry hentry
    obtain ⟨hid, f, hf, hregistry, hplace⟩ := hg.sound.entries registry entry hentry
    refine ⟨?_, f, hf, hregistry, ?_⟩
    · rw [List.length_append]
      exact Nat.lt_add_right _ hid
    · rw [path, hwas hid]
      exact hplace
  · rw [List.length_append]
    exact Nat.le_add_right_of_le hg.grows.made
  · intro id hid
    rw [hwas (Nat.lt_of_lt_of_le hid hg.grows.made)]
    exact hg.grows.db id hid
  · intro id hid hclosed
    rw [isClosed, hwas (Nat.lt_of_lt_of_le hid hg.grows.made)]
    exact hg.grows.closed id hid hclosed

end Follows

/-- A connection counts as closed. -/
def marked (h : Hub) (id : Nat) : Hub := h.setConnection id { h.connection id with isClosed := true }

theorem connection_marked (hid : id < h.connections.length) :
    (h.marked id).connection id = { h.connection id with isClosed := true } :=
  connection_setConnection_of_lt hid _

/-! ### Calls of sessions -/

/-- A hub goes on soundly, and no store has changed but the one that a connection is connected to. -/
structure Proceeds (F : Factory → Prop) (id : Nat) (h g : Hub) : Prop extends Follows F h g where
  stores : ∀ path, path ≠ h.path id → g.engine.store path = h.engine.store path

theorem proceeds_self (hs : h.IsSound F) (id : Nat) : Proceeds F id h h := ⟨follows_self hs, fun _ _ => rfl⟩

namespace Proceeds

variable (hg : Proceeds F id h g) (hs : h.IsSound F) (hid : id < h.connections.length)

include hg hs hid

/-- What is done on the connection in the engine changes no other store. -/
theorem withOthers {e : Engine} (he : g.engine.LeavesOthers (g.connection id).db e)
    (hlive : g.isClosed id = false → (g.connection id).db ∈ e.live) :
    Proceeds F id h { g with engine := e } where
  toFollows := hg.toFollows.withOthers he (Nat.lt_of_lt_of_le hid hg.grows.made) hlive
  stores other hother := by
    rw [← hg.grows.path_eq hs hid] at hother
    exact (he.stores other hother).trans (hg.stores other (hg.grows.path_eq hs hid ▸ hother))

end Proceeds

/-- Whatever a session does on its connection is such a step. -/
theorem isKeptOn_proceeds (hs : h.IsSound F) (hid : id < h.connections.length) :
    IsKeptOn id fun g g' => g = g' ∧ Proceeds F id h g where
  connection := by
    rintro g _ ⟨rfl, _⟩
    rfl
  setConnection := by
    rintro g _ c ⟨rfl, hg⟩ hdb hclosed
    exact ⟨rfl, hg.toFollows.setConnection hdb hclosed, hg.stores⟩
  log := by
    rintro g _ e ⟨rfl, hg⟩
    exact ⟨rfl, hg.toFollows.noting _ _ _, hg.stores⟩
  listening := by
    rintro g _ listener handler ⟨rfl, hg⟩
    exact ⟨rfl, hg.toFollows.noting _ _ _, hg.stores⟩
  evict := by
    rintro g _ registry ⟨rfl, hg⟩
    obtain ⟨r, log, hr, hrun⟩ := Task.evict_run registry id g
    rw [after_of_ok hrun]
    have hregistry := hg.toFollows.setRegistry fun entry hentry => .inl (hr hentry)
    exact ⟨rfl, hregistry.noting _ _ _, hg.stores⟩
  engine := by
    rintro g _ α a ⟨rfl, hg⟩ ha
    have hmade := hg.sound.inEngine id (Nat.lt_of_lt_of_le hid hg.grows.made)
    obtain ⟨r, e, _, he, _, hleft, _, _⟩ :=
      ha _ _ hg.sound.atRest hg.sound.atRest (Engine.alikeAt_self hmade)
    refine ⟨r, e, e, he, he, rfl, hg.withOthers hs hid hleft.toLeavesOthers fun hopen => ?_⟩
    rw [hleft.held]
    exact hg.sound.live id hopen

/-- A connection that is closed may be closed in the engine. -/
theorem isKeptByClosing_proceeds (hs : h.IsSound F) (hid : id < h.connections.length)
    (hclosed : h.isClosed id = true) : IsKeptByClosing id fun g g' => g = g' ∧ Proceeds F id h g where
  toIsKeptOn := isKeptOn_proceeds hs hid
  close := by
    rintro g _ ⟨rfl, hg⟩
    have hmade := hg.sound.inEngine id (Nat.lt_of_lt_of_le hid hg.grows.made)
    obtain ⟨_, e, _, he, _, hleft, _, _⟩ := Action.isLocal_close _ _ _ hg.sound.atRest hg.sound.atRest
      (Engine.alikeAt_self hmade)
    obtain ⟨d, hclose⟩ := Action.exists_close_run (g.connection id).db g.engine
    obtain ⟨rfl, rfl⟩ := ending_eq_ok_iff.1 (he.symm.trans hclose)
    refine ⟨_, _, hclose, hclose, rfl, hg.withOthers hs hid hleft fun hopen => ?_⟩
    rw [hg.grows.closed id hid hclosed] at hopen
    cases hopen

end Hub

/-! ### Operations -/

open Hub

/-- A relation is kept by an operation that is entered in a hub, and again by its job when its turn comes,
however the hub has gone on until then. -/
structure Operation.IsSteadyAt {α : Type} (F : Factory → Prop) (K : Hub → Hub → Prop) (h : Hub)
    (o : Operation Hub α) : Prop where
  enter : K h (o.enter.after h)
  turn {g k : Hub} {job : Task α} : o.enter h = .ok (.waiting job) g → Follows F g k → K k (job.after k)

namespace Session

variable {F : Factory → Prop} {h : Hub} {s : Session}

/-- What closing does to a connection when its turn comes. -/
def shut (s : Session) : Task Unit := do
  let c ← Task.connection s.connection
  Task.engine (Action.close c.db)
  Task.evict s.registry s.connection
  Task.log (.sessionClosed c.name c.version)

/-- Closing cannot fail when its turn comes. -/
theorem shut_run (s : Session) (k : Hub) : ∃ e r log,
    Action.close (k.connection s.connection).db k.engine = .ok () e ∧
      r.entries ⊆ (k.registry s.registry).entries ∧
      s.shut k = .ok () { k.setRegistry s.registry r with engine := e, log := log } := by
  obtain ⟨e, hclose⟩ := Action.exists_close_run (k.connection s.connection).db k.engine
  obtain ⟨r, log, hr, hevict⟩ := Task.evict_run s.registry s.connection { k with engine := e }
  have hengine : Task.engine (Action.close (k.connection s.connection).db) k = .ok () { k with engine := e } :=
    focus_of_ending (r := .ok ()) hclose
  exact ⟨e, r, _, hclose, hr, (bind_of_ok hengine _).trans ((bind_of_ok hevict _).trans rfl)⟩

/-- Closing marks the connection at once, and then waits for its turn. -/
theorem close_enter_of_open (hopen : h.isClosed s.connection = false) : s.close.enter h =
    .ok (.waiting (s.inTurn (!decide (((h.marked s.connection).connection s.connection).jobs = 0)) (pure ())
      s.shut)) ((h.marked s.connection).queued s.connection) := by
  have hpassed : Task.ensureOpen s.connection h = .ok () h := by
    rw [Task.ensureOpen_run, if_neg (Bool.eq_false_iff.1 hopen)]
  exact (bind_of_ok hpassed _).trans (queue_run (pure ()) s.shut (h.marked s.connection))

/-- Closing marks the connection at once, and leaves a job that closes it in the engine and cannot fail. -/
theorem close_enter_run (hopen : h.isClosed s.connection = false) : ∃ job,
    s.close.enter h = .ok (.waiting job) ((h.marked s.connection).queued s.connection) ∧
    ∀ k, ∃ e r log, Action.close (k.connection s.connection).db k.engine = .ok () e ∧
      r.entries ⊆ (k.registry s.registry).entries ∧ job k = .ok () { (k.setConnection s.connection
        { k.connection s.connection with jobs := (k.connection s.connection).jobs - 1 }).setRegistry
          s.registry r with engine := e, log := log } := by
  refine ⟨_, close_enter_of_open hopen, fun k => ?_⟩
  obtain ⟨e, r, log, hclose, hr, hshut⟩ := s.shut_run k
  exact ⟨e, r, log, hclose, hr, inTurn_unchecked (r := .ok ()) hshut⟩

/-- An open session can always be closed. -/
theorem close_run (hopen : h.isClosed s.connection = false) : ∃ e r log,
    Action.close (h.connection s.connection).db h.engine = .ok () e ∧
      r.entries ⊆ (h.registry s.registry).entries ∧ s.close.run h =
        .ok () { (h.marked s.connection).setRegistry s.registry r with engine := e, log := log } := by
  have hlt := lt_of_isClosed_eq_false hopen
  obtain ⟨job, henter, hjob⟩ := close_enter_run hopen
  obtain ⟨e, r, log, hclose, hr, hrun⟩ := hjob ((h.marked s.connection).queued s.connection)
  have hqueued : ((h.marked s.connection).queued s.connection).connection s.connection =
      { h.connection s.connection with isClosed := true, jobs := (h.connection s.connection).jobs + 1 } := by
    rw [queued, connection_setConnection_of_lt (Nat.lt_of_lt_of_eq hlt List.length_set.symm),
      connection_marked hlt]
  rw [hqueued] at hclose hrun
  refine ⟨e, r, log, hclose, hr, (bind_of_ok henter _).trans (hrun.trans ?_)⟩
  -- the connection is given back to what it was when it was marked
  simp [marked, queued, setConnection, setRegistry]

/-- Once closing was asked for, the connection counts as closed. -/
theorem isClosed_of_close_enter (hmade : s.connection < h.connections.length) {g : Hub} {t : Turn Hub Value}
    (hrun : (Call.close.on s).enter h = .ok t g) : g.isClosed s.connection = true := by
  cases hclosed : h.isClosed s.connection with
  | true =>
      have hrefused : Task.ensureOpen s.connection h = .error .sessionClosed h := by
        rw [Task.ensureOpen_run, if_pos hclosed]
      have hclose : s.close.enter h = .error .sessionClosed h := bind_of_error hrefused _
      cases (Operation.andThen_of_error hclose).symm.trans hrun
  | false =>
      obtain ⟨job, henter, _⟩ := close_enter_run hclosed
      cases (Operation.andThen_of_waiting henter).symm.trans hrun
      rw [isClosed, queued,
        connection_setConnection_of_lt (Nat.lt_of_lt_of_eq hmade List.length_set.symm), connection_marked hmade]

/-- Whatever is asked of a session lets the hub go on, when it is asked and when its turn comes, and changes
no store but that of the session. -/
theorem isSteadyAt_on (hs : h.IsSound F) (hmade : s.connection < h.connections.length) (c : Call) :
    (c.on s).IsSteadyAt F (Proceeds F s.connection) h := by
  have hkept := isKeptOn_proceeds hs hmade
  have henter : Proceeds F s.connection h ((c.on s).enter.after h) := by
    -- what the job does is of no concern yet
    have hnever : IsKeptByClosing s.connection fun _ _ => False :=
      { connection := nofun, setConnection := nofun, log := nofun, listening := nofun, evict := nofun,
        engine := nofun, close := nofun }
    exact (respects_on hkept hnever.toIsKeptOn c fun _ => hnever).keeps.after (proceeds_self hs _)
  refine ⟨henter, fun {g k job} hrun hk => ?_⟩
  rw [after_of_ok hrun] at henter
  have hmade' := Nat.lt_of_lt_of_le hmade henter.grows.made
  have hkept' := isKeptOn_proceeds hk.sound (Nat.lt_of_lt_of_le hmade' hk.grows.made)
  have hclosing (hc : c = .close) : IsKeptByClosing s.connection fun l l' => l = l' ∧ Proceeds F s.connection k l := by
    subst hc
    have hclosed := isClosed_of_close_enter hmade hrun
    exact isKeptByClosing_proceeds hk.sound (Nat.lt_of_lt_of_le hmade' hk.grows.made)
      (hk.grows.closed _ hmade' hclosed)
  have hboth := respects_on hkept hkept' c hclosing h h ⟨rfl, proceeds_self hs _⟩
  cases hboth with
  | error ha _ _ => cases hrun.symm.trans ha
  | ok ha hb hturn _ =>
      cases hrun.symm.trans ha
      cases hrun.symm.trans hb
      cases hturn with
      | waiting hjob => exact hjob.keeps.after (proceeds_self hk.sound _)

end Session

end RecordStore
