import RecordStore.Proofs.Agreement
import RecordStore.Proofs.Engine.Opened

/-!
Actions that are local to a connection. What is done on a connection while nobody has a transaction under way
is told by the connection and by the store at its path, and changes nothing else. So the same is done in two
engines in which these are the same, whatever other connections, stores and transactions there are.
-/

namespace RecordStore

open Effect

namespace Engine

/-- Nobody has a transaction under way, and no listener fails. -/
structure IsAtRest (e : Engine) : Prop where
  live : ∀ id ∈ e.live, id < e.connections.length
  idle : ∀ id, (e.connection id).work = .idle
  quiet : ∀ id, ∀ l ∈ (e.connection id).listeners, l.fails = false

/-- A connection is the same in two engines, with the store at its path. -/
structure AlikeAt (e : Engine) (db : Nat) (d : Engine) : Prop where
  made : db < e.connections.length
  made' : db < d.connections.length
  connection : d.connection db = e.connection db
  store : d.store (e.connection db).path = e.store (e.connection db).path
  listenerCount : d.listenerCount = e.listenerCount

/-- All that does not belong to a connection is as it was, and the engine is at rest. -/
structure LeavesOthers (e : Engine) (db : Nat) (d : Engine) : Prop where
  made : d.connections.length = e.connections.length
  others : ∀ id, id ≠ db → d.connection id = e.connection id
  path : (d.connection db).path = (e.connection db).path
  stores : ∀ path, path ≠ (e.connection db).path → d.store path = e.store path
  live : ∀ id, id ≠ db → (id ∈ d.live ↔ id ∈ e.live)
  atRest : d.IsAtRest

/-- Besides, the same connections hold their paths open. -/
structure LeavesHeld (e : Engine) (db : Nat) (d : Engine) : Prop extends LeavesOthers e db d where
  held : d.live = e.live

theorem alikeAt_self {e : Engine} {db : Nat} (h : db < e.connections.length) : e.AlikeAt db e :=
  ⟨h, h, rfl, rfl, rfl⟩

theorem connection_setConnection_of_lt {e : Engine} {id : Nat} (h : id < e.connections.length)
    (c : Connection) : (e.setConnection id c).connection id = c := by
  rw [connection, setConnection, List.getElem?_set_self h]
  rfl

theorem leavesHeld_self {e : Engine} (he : e.IsAtRest) (db : Nat) : e.LeavesHeld db e :=
  ⟨⟨rfl, fun _ _ => rfl, rfl, fun _ _ => rfl, fun _ _ => .rfl, he⟩, rfl⟩

variable {e d e' d' : Engine} {db t u tx : Nat} {w : Work}

namespace IsAtRest

theorem congr (he : e.IsAtRest) (hc : d.connections = e.connections) (hl : d.live = e.live) :
    d.IsAtRest where
  live id hid := by
    rw [hc]
    exact he.live id (hl ▸ hid)
  idle id := by
    rw [connection_congr hc]
    exact he.idle id
  quiet id := by
    rw [connection_congr hc]
    exact he.quiet id

theorem setConnection (he : e.IsAtRest) {id : Nat} {c : Connection} (hidle : c.work = .idle)
    (hquiet : ∀ l ∈ c.listeners, l.fails = false) : (e.setConnection id c).IsAtRest where
  live other hother := by
    rw [Engine.setConnection, List.length_set]
    exact he.live other hother
  idle other := by
    rcases connection_setConnection e id c other with heq | ⟨_, heq⟩
    · rw [heq]
      exact he.idle other
    · rw [heq]
      exact hidle
  quiet other := by
    rcases connection_setConnection e id c other with heq | ⟨_, heq⟩
    · rw [heq]
      exact he.quiet other
    · rw [heq]
      exact hquiet

theorem hasOtherWriter_eq_false (he : e.IsAtRest) (db : Nat) (path : String) :
    Action.hasOtherWriter e db path = false := by
  refine List.any_eq_false.2 fun other _ => ?_
  rw [he.idle other]
  simp

end IsAtRest

/-- A connection that is replaced by one to the same path. -/
theorem leavesHeld_setConnection (he : e.IsAtRest) {c : Connection} (hpath : c.path = (e.connection db).path)
    (hidle : c.work = .idle) (hquiet : ∀ l ∈ c.listeners, l.fails = false) :
    e.LeavesHeld db (e.setConnection db c) where
  made := List.length_set
  others _ hid := connection_setConnection_of_ne hid
  path := connection_setConnection_congr Connection.path hpath db
  stores _ _ := rfl
  live _ _ := .rfl
  atRest := he.setConnection hidle hquiet
  held := rfl

/-- A connection that is replaced by the same one in both engines. -/
theorem AlikeAt.setConnection (h : e.AlikeAt db d) {c : Connection} (hpath : c.path = (e.connection db).path) :
    (e.setConnection db c).AlikeAt db (d.setConnection db c) := by
  have hself := connection_setConnection_of_lt h.made c
  constructor
  · exact Nat.lt_of_lt_of_eq h.made List.length_set.symm
  · exact Nat.lt_of_lt_of_eq h.made' List.length_set.symm
  · rw [hself, connection_setConnection_of_lt h.made' c]
  · rw [hself, hpath]
    exact h.store
  · exact h.listenerCount

/-- Notices, waiters and the number of listeners do not count. -/
theorem LeavesOthers.congr (h : e.LeavesOthers db d) (hc : d'.connections = d.connections)
    (hs : d'.stores = d.stores) (hl : d'.live = d.live) : e.LeavesOthers db d' where
  made := hc ▸ h.made
  others id hid := (connection_congr hc id).trans (h.others id hid)
  path := (congrArg Connection.path (connection_congr hc db)).trans h.path
  stores path hpath := (store_congr hs path).trans (h.stores path hpath)
  live id hid := hl ▸ h.live id hid
  atRest := h.atRest.congr hc hl

theorem LeavesHeld.congr (h : e.LeavesHeld db d) (hc : d'.connections = d.connections)
    (hs : d'.stores = d.stores) (hl : d'.live = d.live) : e.LeavesHeld db d' :=
  ⟨h.toLeavesOthers.congr hc hs hl, hl.trans h.held⟩

/-- Nor does the store at the path of the connection. -/
theorem LeavesHeld.keep (h : e.LeavesHeld db d) (s : Store) :
    e.LeavesHeld db (d.keep (e.connection db).path s) where
  made := h.made
  others := h.others
  path := h.path
  stores path hpath := (store_keep_of_ne hpath).trans (h.stores path hpath)
  live := h.live
  atRest := h.atRest.congr rfl rfl
  held := h.held

/-! ### A transaction on a connection -/

/-- A transaction is under way on a connection of an engine that was at rest, and nothing else has
changed. -/
structure IsUnderWay (e : Engine) (db tx : Nat) (w : Work) (d : Engine) : Prop where
  active : (d.transaction tx).isActive = true
  transaction : (d.transaction tx).connection = db
  isOpen : (e.connection db).isClosed = false
  own : d.connection db = { e.connection db with work := w }
  others : ∀ id, id ≠ db → d.connection id = e.connection id
  made : d.connections.length = e.connections.length
  stores : d.stores = e.stores
  live : d.live = e.live
  listenerCount : d.listenerCount = e.listenerCount

namespace IsUnderWay

variable (h : e.IsUnderWay db tx w d)

include h

theorem hasUnderWay : d.HasUnderWay tx w where
  active := h.active
  isOpen := by
    rw [h.transaction, h.own]
    exact h.isOpen
  work := by rw [h.transaction, h.own]

theorem path : (d.connection (d.transaction tx).connection).path = (e.connection db).path := by
  rw [h.transaction, h.own]

theorem rework (w' : Work) : e.IsUnderWay db tx w' (d.rework tx w') where
  active := h.active
  transaction := h.transaction
  isOpen := h.isOpen
  own := by
    have hself := connection_rework_self h.hasUnderWay w'
    rw [h.transaction, h.own] at hself
    exact hself
  others id hid := (connection_setConnection_of_ne (by rw [h.transaction]; exact hid)).trans (h.others id hid)
  made := List.length_set.trans h.made
  stores := h.stores
  live := h.live
  listenerCount := h.listenerCount

/-- When the transaction ends, all connections are as they were. -/
theorem connection_ended (he : e.IsAtRest) (id : Nat) : (d.ended tx).connection id = e.connection id := by
  have hconnection : (d.ended tx).connections =
      (d.setConnection (d.transaction tx).connection
        { d.connection (d.transaction tx).connection with work := .idle }).connections := rfl
  have hidle : { e.connection db with work := .idle } = e.connection db := by rw [← he.idle db]
  rw [connection_congr hconnection, h.transaction, h.own]
  by_cases hid : id = db
  · subst hid
    exact (connection_setConnection_self ((congrArg Connection.isClosed h.own).trans h.isOpen)).trans hidle
  · exact (connection_setConnection_of_ne hid).trans (h.others id hid)

theorem atRest_ended (he : e.IsAtRest) : (d.ended tx).IsAtRest where
  live id hid := by
    have hmade : (d.ended tx).connections.length = d.connections.length := List.length_set
    rw [hmade, h.made]
    exact he.live id (h.live ▸ hid)
  idle id := by
    rw [h.connection_ended he]
    exact he.idle id
  quiet id := by
    rw [h.connection_ended he]
    exact he.quiet id

theorem leavesHeld_ended (he : e.IsAtRest) : e.LeavesHeld db (d.ended tx) where
  made := List.length_set.trans h.made
  others id _ := h.connection_ended he id
  path := congrArg Connection.path (h.connection_ended he db)
  stores path _ := (store_congr h.stores path :)
  live _ _ := Eq.to_iff (congrArg _ h.live)
  atRest := h.atRest_ended he
  held := h.live

end IsUnderWay

/-- Two transactions under way on one connection, in engines where it was the same, have come equally far. -/
structure Abreast (e d : Engine) (db t u : Nat) (w : Work) (e' d' : Engine) : Prop where
  alike : e.AlikeAt db d
  left : e.IsUnderWay db t w e'
  right : d.IsUnderWay db u w d'
  transaction : d'.transaction u = e'.transaction t
  mode : (e'.transaction t).mode ≠ .versionchange

namespace Abreast

variable (h : Abreast e d db t u w e' d')

include h

theorem rework (w' : Work) : Abreast e d db t u w' (e'.rework t w') (d'.rework u w') where
  alike := h.alike
  left := h.left.rework w'
  right := h.right.rework w'
  transaction := h.transaction
  mode := h.mode

theorem store_eq : d'.store (d'.connection (d'.transaction u).connection).path =
    e'.store (e'.connection (e'.transaction t).connection).path := by
  rw [h.left.path, h.right.path, h.alike.connection, store_congr h.left.stores, store_congr h.right.stores]
  exact h.alike.store

end Abreast

end Engine

/-- The same collection as another transaction obtains it. -/
def StoreRef.over (r : StoreRef) (tx : Nat) : StoreRef := { r with transaction := tx }

/-- A cursor at the same place of the same collection. -/
def CursorRef.over (r : CursorRef) (tx : Nat) : CursorRef := { r with store := r.store.over tx }

@[simp] theorem CursorRef.cursor_over (r : CursorRef) (tx : Nat) : (r.over tx).cursor = r.cursor := rfl

@[simp] theorem CursorRef.store_over (r : CursorRef) (tx : Nat) : (r.over tx).store = r.store.over tx := rfl

@[simp] theorem StoreRef.keying_over (r : StoreRef) (tx : Nat) : (r.over tx).keying = r.keying := rfl

/-! ### What a transaction does with what it has under way -/

namespace Work

/-- The store that a transaction sees, over the store that is kept. -/
def seen (kept : Store) : Work → Store
  | writing draft => draft
  | reading (some snapshot) => snapshot
  | reading none | idle => kept

/-- What a transaction has under way after a read. -/
def afterRead (kept : Store) : Work → Work
  | reading none => reading (some kept)
  | w => w

/-- What a transaction has under way after a write. -/
def afterWrite (change : Store → Store) : Work → Work
  | writing draft => writing (change draft)
  | w => w

end Work

namespace Action

variable {α β : Type} {e d e' d' : Engine} {db t u tx : Nat} {w : Work}

theorem read_run (h : e.HasUnderWay tx w) : read tx e =
    .ok (w.seen (e.store (e.connection (e.transaction tx).connection).path))
      (e.rework tx (w.afterRead (e.store (e.connection (e.transaction tx).connection).path))) := by
  have hself := Engine.rework_self h
  cases w with
  | idle =>
      unfold read
      rw [bind_of_ok (ensureActive_of_hasUnderWay h), bind_of_ok (statement_of_hasUnderWay h), h.work]
      exact congrArg (EStateM.Result.ok _) hself.symm
  | writing draft =>
      rw [read_of_draft (Engine.draft?_eq_some_iff.2 h)]
      exact congrArg (EStateM.Result.ok _) hself.symm
  | reading snapshot =>
      cases snapshot with
      | none => exact read_of_unread h
      | some s =>
          rw [read_of_seen h]
          exact congrArg (EStateM.Result.ok _) hself.symm

theorem write_run (h : e.HasUnderWay tx w) (change : Store → Store) :
    write tx change e = .ok () (e.rework tx (w.afterWrite change)) := by
  unfold write
  rw [bind_of_ok (ensureActive_of_hasUnderWay h), bind_of_ok (statement_of_hasUnderWay h), h.work]
  have hself := Engine.rework_self h
  cases w with
  | idle => exact congrArg (EStateM.Result.ok ()) hself.symm
  | writing draft => rfl
  | reading snapshot => exact congrArg (EStateM.Result.ok ()) hself.symm

/-- Outside an upgrade the scope of a transaction stays. -/
theorem openCollection_run (hmode : (e.transaction tx).mode ≠ .versionchange) (name : Value) :
    openCollection tx name e = openIn tx name (e.transaction tx).scope e := by
  have htransaction : transaction tx e = .ok (e.transaction tx) e := rfl
  rw [openCollection_eq, bind_of_ok htransaction, if_neg hmode, pure_bind, modify_bind]
  exact congrArg (openIn tx name (e.transaction tx).scope) (Engine.setTransaction_self e tx)

/-! ### Bodies that do the same through any transaction -/

/-- A body does the same through two transactions that have come equally far. -/
def IsUniform (body : Nat → Action α) : Prop :=
  ∀ e d db t u, Agree (fun e' d' => ∃ w, Engine.Abreast e d db t u w e' d') Eq (body t) (body u)

theorem isUniform_pure (x : α) : IsUniform fun _ => pure x := fun _ _ _ _ _ => agree_pure rfl

theorem isUniform_throw (f : Failure) : IsUniform fun _ => (throw f : Action α) :=
  fun _ _ _ _ _ => agree_throw f

theorem isUniform_ofExcept (r : Except Failure α) : IsUniform fun _ => (ofExcept r : Action α) :=
  fun _ _ _ _ _ => agree_ofExcept r

theorem isUniform_bind {a : Nat → Action α} {f : Nat → α → Action β} (ha : IsUniform a)
    (hf : ∀ x, IsUniform fun tx => f tx x) : IsUniform fun tx => a tx >>= f tx :=
  fun _ _ _ _ _ => agree_bind_eq (ha _ _ _ _ _) fun x => hf x _ _ _ _ _

theorem isUniform_ite {c : Prop} [Decidable c] {a b : Nat → Action α} (ha : IsUniform a) (hb : IsUniform b) :
    IsUniform fun tx => if c then a tx else b tx :=
  fun _ _ _ _ _ => agree_ite (ha _ _ _ _ _) (hb _ _ _ _ _)

theorem isUniform_guard {c : Prop} [Decidable c] {f : Failure} {g : Nat → α → Action β} {rest : Nat → Action β}
    (hrest : IsUniform rest) :
    IsUniform fun tx => if c then (throw f : Action α) >>= g tx else rest tx :=
  fun _ _ _ _ _ => agree_ite (agree_throw_bind f) (hrest _ _ _ _ _)

theorem isUniform_read : IsUniform read := by
  rintro e d db t u e' d' ⟨w, h⟩
  have hright := read_run h.right.hasUnderWay
  rw [h.store_eq] at hright
  exact .ok (read_run h.left.hasUnderWay) hright rfl ⟨_, h.rework _⟩

theorem isUniform_write (change : Store → Store) : IsUniform fun tx => write tx change := by
  rintro e d db t u e' d' ⟨w, h⟩
  exact .ok (write_run h.left.hasUnderWay change) (write_run h.right.hasUnderWay change) rfl ⟨_, h.rework _⟩

theorem isUniform_ensureActive : IsUniform ensureActive := by
  rintro e d db t u e' d' ⟨w, h⟩
  have hright := ensureActive_of_hasUnderWay h.right.hasUnderWay
  rw [h.transaction] at hright
  exact .ok (ensureActive_of_hasUnderWay h.left.hasUnderWay) hright rfl ⟨w, h⟩

theorem isUniform_ensureWritable : IsUniform ensureWritable :=
  isUniform_bind isUniform_ensureActive fun t => isUniform_ite (isUniform_throw _) (isUniform_pure t)

/-- What is obtained of a collection is the same through both transactions. -/
theorem agree_openIn (e d : Engine) (db t u : Nat) (name : Value) (scope : List String) :
    Agree (fun e' d' => ∃ w, Engine.Abreast e d db t u w e' d')
      (fun r q => ∃ p : StoreRef, r = p.over t ∧ q = p.over u) (openIn t name scope)
      (openIn u name scope) := by
  refine agree_bind_eq (isUniform_ensureActive e d db t u) fun _ => ?_
  cases name.unhashable? with
  | some k => exact agree_throw_bind _
  | none =>
      refine agree_ite (agree_throw_bind _) (agree_bind_eq (isUniform_read e d db t u) fun s => ?_)
      cases (s.contents.get name.display).header with
      | none => exact agree_throw _
      | some h => exact agree_pure ⟨⟨t, name.display, h.keying⟩, rfl, rfl⟩

theorem agree_openCollection (e d : Engine) (db t u : Nat) (name : Value) :
    Agree (fun e' d' => ∃ w, Engine.Abreast e d db t u w e' d')
      (fun r q => ∃ p : StoreRef, r = p.over t ∧ q = p.over u) (openCollection t name)
      (openCollection u name) := by
  rintro e' d' ⟨w, h⟩
  have hright := openCollection_run (h.transaction ▸ h.mode) name
  rw [h.transaction] at hright
  exact (agree_openIn e d db t u name _ e' d' ⟨w, h⟩).congr (openCollection_run h.mode name) hright

/-- A body that goes on with a collection which it obtains. -/
theorem isUniform_openCollection_bind {name : Value} {f : Nat → StoreRef → Action α}
    (hf : ∀ r : StoreRef, IsUniform fun tx => f tx (r.over tx)) :
    IsUniform fun tx => openCollection tx name >>= f tx := by
  intro e d db t u
  refine agree_bind (agree_openCollection e d db t u name) ?_
  rintro _ _ ⟨r, rfl, rfl⟩
  exact hf r e d db t u

end Action

/-! ### Collections and cursors -/

open Action

variable {α : Type}

namespace StoreRef

variable (r : StoreRef)

theorem isUniform_collection : IsUniform fun tx => (r.over tx).collection :=
  isUniform_bind isUniform_read fun s => isUniform_pure (s.contents.get r.name)

theorem isUniform_change (f : Collection → Except Failure α × Collection) :
    IsUniform fun tx => (r.over tx).change f := by
  have hchange (c : Collection) : IsUniform fun tx =>
      Action.write tx (fun s => { s with contents := s.contents.set r.name (f c).2 }) >>= fun _ =>
        ofExcept (f c).1 :=
    isUniform_bind (Action.isUniform_write _) fun _ => isUniform_ofExcept _
  exact isUniform_bind r.isUniform_collection hchange

theorem isUniform_write (value key : Value) (overwrite : Bool) :
    IsUniform fun tx => (r.over tx).write value key overwrite :=
  isUniform_bind isUniform_ensureWritable fun _ =>
    r.isUniform_change fun c => c.write r.name r.keying value key overwrite

theorem isUniform_conditions (query : Value) : IsUniform fun _ => conditions query :=
  isUniform_bind (isUniform_ofExcept _) fun _ => isUniform_pure _

theorem isUniform_get (query : Value) : IsUniform fun tx => (r.over tx).get query :=
  isUniform_guard <| isUniform_bind (isUniform_conditions query) fun cs =>
    isUniform_bind r.isUniform_collection fun c => isUniform_ofExcept (c.get none cs)

theorem isUniform_delete (query : Value) : IsUniform fun tx => (r.over tx).delete query :=
  isUniform_bind isUniform_ensureWritable fun _ => isUniform_guard <|
    isUniform_bind (isUniform_conditions query) fun cs => r.isUniform_change fun c => (.ok (), c.delete cs)

theorem isUniform_clear : IsUniform fun tx => (r.over tx).clear :=
  isUniform_bind isUniform_ensureWritable fun _ => r.isUniform_change fun c => (.ok (), c.clear)

theorem isUniform_count (source : Option String) (query : Value) :
    IsUniform fun tx => (r.over tx).count source query :=
  isUniform_bind (isUniform_conditions query) fun cs =>
    isUniform_bind r.isUniform_collection fun c => isUniform_pure (c.count source cs)

end StoreRef

namespace CursorRef

variable (r : CursorRef)

/-- What a cursor comes to is the same through both transactions. -/
theorem agree_step (e d : Engine) (db t u count : Nat) :
    Agree (fun e' d' => ∃ w, Engine.Abreast e d db t u w e' d')
      (fun x y => ∃ next : CursorRef, x.1 = y.1 ∧ x.2 = next.over t ∧ y.2 = next.over u)
      ((r.over t).step count) ((r.over u).step count) := by
  refine agree_bind_eq (r.store.isUniform_collection e d db t u) fun c => ?_
  exact agree_ite (agree_throw_bind _) (agree_pure ⟨⟨r.store, (r.cursor.step c count).2⟩, rfl, rfl, rfl⟩)

/-- A body that goes on with a cursor which it moves. -/
theorem isUniform_step_bind {count : Nat} {f : Nat → CursorRef → Action α}
    (hf : ∀ next : CursorRef, IsUniform fun tx => f tx (next.over tx)) :
    IsUniform fun tx => (r.over tx).step count >>= fun x => ofExcept x.1 >>= fun _ => f tx x.2 := by
  intro e d db t u
  refine agree_bind (r.agree_step e d db t u count) ?_
  rintro ⟨result, _⟩ ⟨_, _⟩ ⟨next, rfl, rfl, rfl⟩
  exact agree_bind_eq (agree_ofExcept result) fun _ => hf next e d db t u

/-- A body that goes on with a cursor which it starts. -/
theorem isUniform_start_bind {r : StoreRef} {source : Option String} {query direction : Value} {keyOnly : Bool}
    {f : Nat → CursorRef → Action α} (hf : ∀ c : CursorRef, IsUniform fun tx => f tx (c.over tx)) :
    IsUniform fun tx => start (r.over tx) source query direction keyOnly >>= f tx := by
  have hstart (e d : Engine) (db t u : Nat) : Agree (fun e' d' => ∃ w, Engine.Abreast e d db t u w e' d')
      (fun x y => ∃ c : CursorRef, x = c.over t ∧ y = c.over u)
      (start (r.over t) source query direction keyOnly) (start (r.over u) source query direction keyOnly) := by
    refine agree_bind_eq (StoreRef.isUniform_conditions query e d db t u) fun cs => ?_
    cases Direction.ofValue? direction with
    | none => exact agree_throw _
    | some dir =>
        refine agree_bind (agree_step ⟨r, .start source cs dir keyOnly⟩ e d db t u 1) ?_
        rintro ⟨result, _⟩ ⟨_, _⟩ ⟨next, rfl, rfl, rfl⟩
        exact agree_bind_eq (agree_ofExcept result) fun _ => agree_pure ⟨next, rfl, rfl⟩
  intro e d db t u
  refine agree_bind (hstart e d db t u) ?_
  rintro _ _ ⟨c, rfl, rfl⟩
  exact hf c e d db t u

theorem isUniform_update (value : Value) : IsUniform fun tx => (r.over tx).update value := by
  have hput (key : Value) : IsUniform fun tx => (r.store.over tx).put value key :=
    r.store.isUniform_write value key true
  have hpositioned : IsUniform fun _ => r.ensurePositioned :=
    isUniform_ite (isUniform_throw _) (isUniform_pure ())
  unfold update
  simp only [cursor_over, store_over, StoreRef.keying_over]
  refine isUniform_guard (c := r.cursor.keyOnly = true) (isUniform_bind hpositioned fun _ => ?_)
  cases r.store.keying.keyPath with
  | none => exact hput r.cursor.primaryKey
  | some path => exact isUniform_bind (isUniform_ofExcept _) fun _ => hput .null

end CursorRef

/-! ### Transactions as a whole -/

namespace Work

/-- The store that is kept when a transaction is committed, over the store that was kept. -/
def kept (before : Store) : Work → Store
  | writing draft => draft
  | _ => before

end Work

namespace Action

variable {e d e' d' : Engine} {db t u tx : Nat} {w : Work}

/-- An action does the same wherever a connection is the same, and leaves alone what does not belong to the
connection. -/
def IsLocal (R : Engine → Nat → Engine → Prop) (db : Nat) (a : Action α) : Prop :=
  ∀ e d, e.IsAtRest → d.IsAtRest → e.AlikeAt db d → ∃ r e' d', a e = ending r e' ∧ a d = ending r d' ∧
    R e db e' ∧ R d db d' ∧ e'.AlikeAt db d'

/-- The transaction that is made when collections of a connection are listed. -/
def makeOver (db : Nat) (c : Connection) (collections : Value) (m : Mode) : Action Nat := do
  let names ← ofExcept (Key.formatResult (listed collections))
  if names.isEmpty then reject .noCollections
  let scope ← ofExcept (Key.storeResult (known c.collectionNames names))
  make db scope m

/-- Whether it is made does not depend on the rest of the engine. -/
theorem makeOver_cases (db : Nat) (c : Connection) (collections : Value) (m : Mode) :
    (∃ f, ∀ e, makeOver db c collections m e = .error f e) ∨
      ∃ scope, ∀ e, makeOver db c collections m e = make db scope m e := by
  unfold makeOver
  cases Key.formatResult (listed collections) with
  | error f => exact .inl ⟨f, fun _ => rfl⟩
  | ok names =>
      have hlisted (e : Engine) : (ofExcept (.ok names) : Action (List Value)) e = .ok names e := rfl
      cases hempty : names.isEmpty with
      | true =>
          refine .inl ⟨.argument .noCollections, fun e => ?_⟩
          rw [bind_of_ok (hlisted e), hempty]
          rfl
      | false =>
          cases hknown : Key.storeResult (known c.collectionNames names) with
          | error f =>
              refine .inl ⟨f, fun e => ?_⟩
              rw [bind_of_ok (hlisted e), hempty, hknown]
              rfl
          | ok scope =>
              refine .inr ⟨scope, fun e => ?_⟩
              rw [bind_of_ok (hlisted e), hempty, hknown]
              rfl

theorem openTransaction_of_mode (hopen : (e.connection db).isClosed = false) {m : Mode}
    (hm : m ≠ .versionchange) (collections : Value) :
    openTransaction db collections (.text m.name) e = makeOver db (e.connection db) collections m e := by
  unfold openTransaction
  rw [bind_of_ok (connection_run db e), hopen]
  cases m with
  | readonly => rfl
  | readwrite => rfl
  | versionchange => exact absurd rfl hm

/-- No other mode is accepted. -/
theorem openTransaction_of_no_mode (hopen : (e.connection db).isClosed = false) {mode : Value}
    (hreads : mode ≠ .text Mode.readonly.name) (hwrites : mode ≠ .text Mode.readwrite.name) (collections : Value) :
    openTransaction db collections mode e = .error (.argument (.mode mode)) e := by
  unfold openTransaction
  rw [bind_of_ok (connection_run db e), hopen]
  simp only [Bool.false_eq_true, if_false]
  split
  · exact absurd rfl hreads
  · exact absurd rfl hwrites
  · rfl

/-- Whether a transaction can be opened is told by its connection. -/
theorem openTransaction_cases (db : Nat) (c : Connection) (collections mode : Value) :
    (∃ f, ∀ e : Engine, e.connection db = c → openTransaction db collections mode e = .error f e) ∨
      ∃ scope m, m ≠ .versionchange ∧ c.isClosed = false ∧ ∀ e : Engine, e.connection db = c →
        openTransaction db collections mode e = make db scope m e := by
  cases hclosed : c.isClosed with
  | true =>
      refine .inl ⟨.store .connectionClosed, fun e he => ?_⟩
      unfold openTransaction
      rw [bind_of_ok (connection_run db e), he, hclosed]
      rfl
  | false =>
      have hopen {e : Engine} (he : e.connection db = c) : (e.connection db).isClosed = false := he ▸ hclosed
      have hopened {m : Mode} (hm : m ≠ .versionchange) :
          (∃ f, ∀ e : Engine, e.connection db = c →
            openTransaction db collections (.text m.name) e = .error f e) ∨
          ∃ scope m', m' ≠ .versionchange ∧ false = false ∧ ∀ e : Engine, e.connection db = c →
            openTransaction db collections (.text m.name) e = make db scope m' e := by
        have hrun (e : Engine) (he : e.connection db = c) :=
          (openTransaction_of_mode (hopen he) hm collections).trans (congrArg (makeOver db · collections m e) he)
        rcases makeOver_cases db c collections m with ⟨f, hf⟩ | ⟨scope, hscope⟩
        · exact .inl ⟨f, fun e he => (hrun e he).trans (hf e)⟩
        · exact .inr ⟨scope, m, hm, rfl, fun e he => (hrun e he).trans (hscope e)⟩
      by_cases hreads : mode = .text Mode.readonly.name
      · subst hreads
        exact hopened nofun
      by_cases hwrites : mode = .text Mode.readwrite.name
      · subst hwrites
        exact hopened nofun
      exact .inl ⟨_, fun e he => openTransaction_of_no_mode (hopen he) hreads hwrites collections⟩

/-- A transaction that is opened on a connection at rest can begin. -/
theorem begin_of_atRest (he : e.IsAtRest) (hopen : (e.connection db).isClosed = false) (scope : List String)
    (m : Mode) : ∃ b, begin e.transactions.length
        { e with transactions := e.transactions ++ [⟨db, scope, m, false, false⟩] } = .ok () b ∧
      b.transaction e.transactions.length = ⟨db, scope, m, true, true⟩ ∧
      e.IsUnderWay db e.transactions.length
        (if m = .readonly then .reading none else .writing (e.store (e.connection db).path)) b := by
  let made : Engine := { e with transactions := e.transactions ++ [⟨db, scope, m, false, false⟩] }
  have ht : made.transaction e.transactions.length = ⟨db, scope, m, false, false⟩ := by
    rw [Engine.transaction, List.getElem?_concat_length]
    rfl
  have hlt : e.transactions.length < made.transactions.length := by
    rw [List.length_append]
    exact Nat.lt_succ_self _
  have hready : made.IsReady e.transactions.length := by
    constructor
    · rw [ht]
    · rw [ht]
      exact hopen
    · rw [ht]
      exact he.idle db
    · rw [ht]
      exact .inr ((he.congr (d := made) rfl rfl).hasOtherWriter_eq_false db _)
  have hbegun := transaction_begun hlt
  rw [ht] at hbegun
  have hconnections : (made.begun e.transactions.length).connections = (e.setConnection db
      { e.connection db with work :=
          if m = .readonly then .reading none else .writing (e.store (e.connection db).path) }).connections := by
    rw [Engine.begun, ht]
    rfl
  refine ⟨made.begun e.transactions.length, begin_of_ready hready, hbegun, ?_⟩
  constructor
  · rw [hbegun]
  · rw [hbegun]
  · exact hopen
  · rw [Engine.connection_congr hconnections, Engine.connection_setConnection_self hopen]
  · intro id hid
    rw [Engine.connection_congr hconnections, Engine.connection_setConnection_of_ne hid]
  · rw [hconnections]
    exact List.length_set
  · rfl
  · rfl
  · rfl

/-- The end of a transaction keeps its draft if the body succeeded, and leaves all else as it was. -/
theorem conclude_of_isUnderWay (h : e.IsUnderWay db tx w d) (he : e.IsAtRest) (r : Except Failure α) :
    ∃ d', conclude tx r d = ending r d' ∧ e.LeavesHeld db d' ∧ d'.connection db = e.connection db ∧
      d'.listenerCount = e.listenerCount ∧ d'.store (e.connection db).path = (match r with
        | .ok _ => w.kept (e.store (e.connection db).path)
        | .error _ => e.store (e.connection db).path) := by
  have hended := h.leavesHeld_ended he
  have hconnection := h.connection_ended he db
  cases r with
  | ok x =>
      have hrun := conclude_ok_run h.hasUnderWay x
      rw [h.path] at hrun
      refine ⟨_, hrun, ?_⟩
      cases w with
      | writing draft =>
          exact ⟨hended.keep draft, hconnection, h.listenerCount, Engine.store_keep_self _ _ draft⟩
      | _ => exact ⟨hended, hconnection, h.listenerCount, (Engine.store_congr h.stores _ :)⟩
  | error f =>
      have hquiet : ∀ l ∈ (d.connection (d.transaction tx).connection).listeners, l.fails = false := by
        rw [h.transaction, h.own]
        exact he.quiet db
      refine ⟨_, conclude_error_run h.hasUnderWay hquiet f, hended.congr rfl rfl rfl, hconnection,
        h.listenerCount, (Engine.store_congr h.stores _ :)⟩

/-- A transaction that is made, begins and ends has run its body. -/
theorem transact_of_ending {collections mode : Value} {scope : List String} {m : Mode} {body : Nat → Action α}
    {r : Except Failure α} {b b' : Engine}
    (hmade : openTransaction db collections mode e = make db scope m e)
    (hbegin : begin e.transactions.length
      { e with transactions := e.transactions ++ [⟨db, scope, m, false, false⟩] } = .ok () b)
    (hrun : body e.transactions.length b = ending r b')
    (hconclude : conclude e.transactions.length r b' = ending r e') :
    (openTransaction db collections mode >>= fun tx => within tx (body tx)) e = ending r e' := by
  rw [bind_of_ok (hmade.trans rfl)]
  exact (bind_of_ok hbegin _).trans ((bind_of_ok (attempt_of_ending hrun) _).trans hconclude)

/-- On an engine at rest a transaction leaves its connection as it was. -/
theorem leaves_connection_of_transact {body : Nat → Action α} (hbody : IsUniform body) (he : e.IsAtRest)
    {collections mode : Value} {r : Except Failure α}
    (h : (openTransaction db collections mode >>= fun tx => within tx (body tx)) e = ending r d) :
    d.IsAtRest ∧ d.connection db = e.connection db := by
  rcases openTransaction_cases db (e.connection db) collections mode with
    ⟨f, hrefused⟩ | ⟨scope, m, hm, hopen, hmade⟩
  · obtain ⟨-, rfl⟩ := ending_inj (r := .error f) ((bind_of_error (hrefused e rfl) _).symm.trans h)
    exact ⟨he, rfl⟩
  · obtain ⟨b, hbegin, ht, hb⟩ := begin_of_atRest he hopen scope m
    have halike := Engine.alikeAt_self (Engine.lt_of_isClosed_eq_false hopen)
    obtain ⟨r', b', c', hrun, _, w, habreast⟩ := (hbody e e db _ _).exists_ending
      ⟨_, halike, hb, hb, rfl, by rw [ht]; exact hm⟩
    obtain ⟨e', hconclude, hleaves, hown, _⟩ := conclude_of_isUnderWay habreast.left he r'
    obtain ⟨-, rfl⟩ := ending_inj ((transact_of_ending (hmade e rfl) hbegin hrun hconclude).symm.trans h)
    exact ⟨hleaves.atRest, hown⟩

/-- A transaction with a body that does the same through any transaction is local to its connection. -/
theorem isLocal_transact {body : Nat → Action α} (hbody : IsUniform body) (db : Nat) (collections mode : Value) :
    IsLocal Engine.LeavesHeld db
      (openTransaction db collections mode >>= fun tx => within tx (body tx)) := by
  intro e d he hd halike
  rcases openTransaction_cases db (e.connection db) collections mode with
    ⟨f, hrefused⟩ | ⟨scope, m, hm, hopen, hmade⟩
  · exact ⟨.error f, e, d, bind_of_error (hrefused e rfl) _, bind_of_error (hrefused d halike.connection) _,
      Engine.leavesHeld_self he db, Engine.leavesHeld_self hd db, halike⟩
  · have hopen' : (d.connection db).isClosed = false := halike.connection ▸ hopen
    obtain ⟨b, hbegin, ht, hb⟩ := begin_of_atRest he hopen scope m
    obtain ⟨c, hbegin', hu, hc⟩ := begin_of_atRest hd hopen' scope m
    rw [halike.connection, halike.store] at hc
    -- the body runs in both transactions abreast, so that both have the same to keep when they end
    obtain ⟨r, b', c', hrun, hrun', w, habreast⟩ := (hbody e d db _ _).exists_ending
      ⟨_, halike, hb, hc, hu.trans ht.symm, by rw [ht]; exact hm⟩
    obtain ⟨e', hconclude, hleaves, hown, hcount, hstore⟩ := conclude_of_isUnderWay habreast.left he r
    obtain ⟨d', hconclude', hleaves', hown', hcount', hstore'⟩ := conclude_of_isUnderWay habreast.right hd r
    refine ⟨r, e', d', transact_of_ending (hmade e rfl) hbegin hrun hconclude,
      transact_of_ending (hmade d halike.connection) hbegin' hrun' hconclude', hleaves, hleaves',
      ?_, ?_, ?_, ?_, ?_⟩
    · exact hleaves.made ▸ halike.made
    · exact hleaves'.made ▸ halike.made'
    · rw [hown, hown', halike.connection]
    · rw [hown, hstore, ← halike.connection, hstore', halike.connection, halike.store]
    · rw [hcount, hcount', halike.listenerCount]

/-! ### Closing and listening -/

theorem leavesOthers_withdrawn (he : e.IsAtRest) (db : Nat) : e.LeavesOthers db (e.withdrawn db) := by
  have hclosed : e.LeavesHeld db (e.closed db) := Engine.leavesHeld_setConnection he rfl rfl (he.quiet db)
  refine ⟨hclosed.made, hclosed.others, hclosed.path, hclosed.stores, fun id hid => ?_, ?_⟩
  · exact ⟨List.mem_of_mem_filter, fun hlive => List.mem_filter.2 ⟨hlive, bne_iff_ne.2 hid⟩⟩
  · exact ⟨fun id hid => hclosed.atRest.live id (List.mem_of_mem_filter hid), hclosed.atRest.idle,
      hclosed.atRest.quiet⟩

/-- Closing a connection leaves an engine at rest. -/
theorem isAtRest_of_close (he : e.IsAtRest) {r : Except Failure Unit} (h : close db e = ending r d) : d.IsAtRest := by
  cases hclosed : (e.connection db).isClosed with
  | true =>
      obtain ⟨-, rfl⟩ := ending_inj (r := .ok ()) ((close_of_closed hclosed).symm.trans h)
      exact he
  | false =>
      obtain ⟨_, _, hclose⟩ := close_of_open hclosed
      obtain ⟨-, rfl⟩ := ending_inj (r := .ok ()) (hclose.symm.trans h)
      exact (leavesOthers_withdrawn he db).atRest.congr rfl rfl

/-- A connection is closed once it was asked to be. -/
theorem isClosed_of_close {r : Except Failure Unit} (h : close db e = ending r d) :
    (d.connection db).isClosed = true := by
  cases hclosed : (e.connection db).isClosed with
  | true =>
      obtain ⟨-, rfl⟩ := ending_inj (r := .ok ()) ((close_of_closed hclosed).symm.trans h)
      exact hclosed
  | false =>
      obtain ⟨_, _, hclose⟩ := close_of_open hclosed
      obtain ⟨-, rfl⟩ := ending_inj (r := .ok ()) (hclose.symm.trans h)
      exact congrArg Connection.isClosed (Engine.connection_setConnection_self hclosed)

theorem isLocal_close (db : Nat) : IsLocal Engine.LeavesOthers db (close db) := by
  intro e d he hd halike
  cases hclosed : (e.connection db).isClosed with
  | true =>
      have hclosed' : (d.connection db).isClosed = true := halike.connection ▸ hclosed
      exact ⟨.ok (), e, d, close_of_closed hclosed, close_of_closed hclosed',
        (Engine.leavesHeld_self he db).toLeavesOthers, (Engine.leavesHeld_self hd db).toLeavesOthers, halike⟩
  | false =>
      have hopen' : (d.connection db).isClosed = false := halike.connection ▸ hclosed
      obtain ⟨waiters, notices, hrun⟩ := close_of_open hclosed
      obtain ⟨waiters', notices', hrun'⟩ := close_of_open hopen'
      have hset : (e.closed db).AlikeAt db (d.closed db) := by
        rw [Engine.closed, Engine.closed, halike.connection]
        exact halike.setConnection rfl
      exact ⟨.ok (), _, _, hrun, hrun', (leavesOthers_withdrawn he db).congr rfl rfl rfl,
        (leavesOthers_withdrawn hd db).congr rfl rfl rfl, ⟨hset.made, hset.made', hset.connection, hset.store,
          hset.listenerCount⟩⟩

theorem isLocal_eventType_bind {f : EventType → Action α} (event : Value)
    (hf : ∀ type, IsLocal Engine.LeavesHeld db (f type)) :
    IsLocal Engine.LeavesHeld db (eventType event >>= f) := by
  have htype : (∃ g, ∀ e, eventType event e = .error g e) ∨ ∃ type, ∀ e, eventType event e = .ok type e := by
    unfold eventType
    cases event.unhashable? with
    | some k => exact .inl ⟨_, fun _ => rfl⟩
    | none =>
        cases EventType.ofValue? event with
        | none => exact .inl ⟨_, fun _ => rfl⟩
        | some type => exact .inr ⟨type, fun _ => rfl⟩
  intro e d he hd halike
  rcases htype with ⟨g, hg⟩ | ⟨type, htype⟩
  · exact ⟨.error g, e, d, bind_of_error (hg e) _, bind_of_error (hg d) _, Engine.leavesHeld_self he db,
      Engine.leavesHeld_self hd db, halike⟩
  · rw [bind_of_ok (htype e), bind_of_ok (htype d)]
    exact hf type e d he hd halike

theorem isLocal_addListener (db : Nat) (event : Value) :
    IsLocal Engine.LeavesHeld db (addListener db event false) := by
  refine isLocal_eventType_bind event fun type e d he hd halike => ?_
  let c : Connection := { e.connection db with
    listeners := (e.connection db).listeners ++ [⟨e.listenerCount, type, false⟩] }
  have hquiet (l : Listener) (hl : l ∈ c.listeners) : l.fails = false := by
    rcases List.mem_append.1 hl with hl | hl
    · exact he.quiet db l hl
    · rw [List.mem_singleton.1 hl]
  have hset := halike.setConnection (c := c) rfl
  refine ⟨.ok e.listenerCount, { e.setConnection db c with listenerCount := e.listenerCount + 1 },
    { d.setConnection db c with listenerCount := e.listenerCount + 1 }, rfl, ?_,
    (Engine.leavesHeld_setConnection (c := c) he rfl (he.idle db) hquiet).congr rfl rfl rfl,
    (Engine.leavesHeld_setConnection (c := c) hd (congrArg Connection.path halike.connection.symm :)
      (he.idle db) hquiet).congr rfl rfl rfl, ⟨hset.made, hset.made', hset.connection, hset.store, rfl⟩⟩
  change EStateM.Result.ok d.listenerCount ({ d.setConnection db { d.connection db with
    listeners := (d.connection db).listeners ++ [⟨d.listenerCount, type, false⟩] } with
      listenerCount := d.listenerCount + 1 }) = _
  rw [halike.connection, halike.listenerCount]
  rfl

theorem isLocal_removeListener (db : Nat) (event : Value) (serial : Nat) :
    IsLocal Engine.LeavesHeld db (removeListener db event serial) := by
  refine isLocal_eventType_bind event fun type e d he hd halike => ?_
  let c : Connection := { e.connection db with
    listeners := (e.connection db).listeners.filter fun l => !(l.type = type && l.serial = serial) }
  have hquiet (l : Listener) (hl : l ∈ c.listeners) : l.fails = false :=
    he.quiet db l (List.mem_of_mem_filter hl)
  refine ⟨.ok (), e.setConnection db c, d.setConnection db c, rfl, ?_,
    Engine.leavesHeld_setConnection he rfl (he.idle db) hquiet,
    Engine.leavesHeld_setConnection hd (congrArg Connection.path halike.connection.symm :) (he.idle db) hquiet,
    halike.setConnection rfl⟩
  change EStateM.Result.ok () (d.setConnection db { d.connection db with
    listeners := List.filter (fun l => !(l.type = type && l.serial = serial)) (d.connection db).listeners }) = _
  rw [halike.connection]
  rfl

end Action
end RecordStore
