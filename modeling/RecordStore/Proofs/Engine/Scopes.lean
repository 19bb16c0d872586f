import RecordStore.Proofs.Engine.Annals
import RecordStore.Proofs.Engine.Bodies
import RecordStore.Proofs.Engine.Opened

/-!
Transactions within their bounds. Whoever uses a transaction goes through handles that it gave out, and it
gives out handles of collections in its scope alone. So a transaction that only reads changes no store, and
one that writes changes records, entries and generators in its scope: the version of the store, its catalog,
all other collections, all other stores and all other connections stay as they are.
-/

namespace RecordStore

open Effect

/-! ### What is to stay -/

/-- What the catalog of a store says of a collection: its keying, if it is there, and the definitions of its
indexes. -/
def Collection.definition (c : Collection) : Option Keying × List (String × IndexSpec) :=
  (c.header.map Header.keying, c.indexes.map fun i => (i.name, i.spec))

/-- Two stores have the same version and the same catalog, and differ in collections of a scope at most. -/
structure Store.AgreesOutside (scope : List String) (s s' : Store) : Prop where
  version : s'.version = s.version
  catalog : ∀ name, (s'.contents.get name).definition = (s.contents.get name).definition
  outside : ∀ name, name ∉ scope → s'.contents.get name = s.contents.get name

/-- What a transaction may make of a store. -/
structure Transaction.MayLeave (t : Transaction) (s s' : Store) : Prop where
  readonly : t.mode = .readonly → s' = s
  readwrite : t.mode = .readwrite → s.AgreesOutside t.scope s'

theorem Store.AgreesOutside.refl (scope : List String) (s : Store) : s.AgreesOutside scope s :=
  ⟨rfl, fun _ => rfl, fun _ _ => rfl⟩

theorem Transaction.mayLeave_refl (t : Transaction) (s : Store) : t.MayLeave s s :=
  ⟨fun _ => rfl, fun _ => .refl _ s⟩

/-! ### Changes of records -/

/-- A change of records and their entries, of which the catalog shows nothing. -/
def Change.isOfRecords : Change → Bool
  | write _ _ _ _ | delete _ | clear => true
  | _ => false

namespace Collection

variable {c d : Collection}

theorem definition_map_indexes {f : Index → Index}
    (hf : ∀ i, (f i).name = i.name ∧ (f i).spec = i.spec) (records : List (Bytes × String)) :
    definition { c with indexes := c.indexes.map f, records := records } = c.definition := by
  rw [definition, definition, List.map_map]
  exact congrArg _ (List.map_congr_left fun i _ => Prod.ext (hf i).1 (hf i).2)

theorem SameData.definition (h : SameData c d) : d.definition = c.definition := by
  rw [Collection.definition, h.keying, h.indexes]
  rfl

theorem definition_write {name : String} {keying : Keying} {value key : Value} {overwrite : Bool}
    {r : Except Failure Value} (h : c.write name keying value key overwrite = (r, d)) :
    d.definition = c.definition := by
  rcases write_cases h with ⟨_, _, hsame⟩ | ⟨_, _, _, _, p, _, _, hsame, _, _, rfl⟩
  · exact hsame.definition
  · exact (definition_map_indexes (name_spec_updateIndex p) _).trans hsame.definition

end Collection

theorem Change.definition_apply {change : Change} (h : change.isOfRecords = true) (name : String)
    (c : Collection) : (change.apply name c).definition = c.definition := by
  cases change with
  | write keying value key overwrite => exact Collection.definition_write rfl
  | delete range =>
      refine Collection.definition_map_indexes ?_ _
      exact fun _ => ⟨rfl, rfl⟩
  | clear =>
      refine Collection.definition_map_indexes ?_ _
      exact fun _ => ⟨rfl, rfl⟩
  | _ => cases h

/-- A change of records in the scope. -/
theorem Store.AgreesOutside.changed {scope : List String} {s s' : Store} (h : s.AgreesOutside scope s')
    {name : String} (hname : name ∈ scope) {change : Change} (hchange : change.isOfRecords = true) :
    s.AgreesOutside scope (s'.changed (some (name, change))) where
  version := h.version
  catalog other := by
    by_cases hother : other = name
    · subst hother
      rw [Store.changed, Contents.changed, Contents.get_set_self]
      exact (Change.definition_apply hchange other _).trans (h.catalog other)
    · rw [Store.changed, Contents.changed, Contents.get_set_of_ne hother]
      exact h.catalog other
  outside other hother := by
    have hne : other ≠ name := fun heq => hother (heq ▸ hname)
    rw [Store.changed, Contents.changed, Contents.get_set_of_ne hne]
    exact h.outside other hother

/-! ### Uses of a transaction -/

/-- What is called by one who has a transaction and some handles that it gave out. No call creates or
deletes a collection: only upgrades have such calls. -/
inductive EngineCall.IsUse (tx : Nat) (handles : List StoreRef) : EngineCall → Prop
  | begin : IsUse tx handles (.begin tx)
  | commit : IsUse tx handles (.commit tx)
  | abort (error : Option String) : IsUse tx handles (.abort tx error)
  | collectionNames : IsUse tx handles (.collectionNames tx)
  | openCollection (name : Value) : IsUse tx handles (.openCollection tx name)
  | through {c : EngineCall} {r : StoreRef} (hr : r ∈ handles) (hc : c.handle? = some r) : IsUse tx handles c

/-- How far the use of a transaction has come: the state of the engine, and the handles that were given
out. -/
structure Usage where
  engine : Engine
  handles : List StoreRef

namespace Usage

def next (u : Usage) (c : EngineCall) : Usage :=
  match c.run u.engine with
  | .ok r e => ⟨e, u.handles ++ r.toList⟩
  | .error _ e => ⟨e, u.handles⟩

/-- Uses of a transaction from some state on. -/
inductive IsReached (tx : Nat) (e : Engine) : Usage → Prop
  | start : IsReached tx e ⟨e, []⟩
  | next {u : Usage} {c : EngineCall} : IsReached tx e u → c.IsUse tx u.handles → IsReached tx e (u.next c)

theorem engine_next (u : Usage) (c : EngineCall) : (u.next c).engine = c.run.after u.engine := by
  unfold next after
  cases c.run u.engine with
  | ok r d => rfl
  | error f d => rfl

end Usage

/-- Only the opening of a collection gives out a handle. -/
theorem EngineCall.exists_openCollection_of_obtained {tx : Nat} {handles : List StoreRef} {c : EngineCall}
    (hc : c.IsUse tx handles) {e d : Engine} {r : StoreRef} (h : c.run e = .ok (some r) d) :
    ∃ name, Action.openCollection tx name e = .ok r d := by
  have hnone {α : Type} {a : Action α} : obtainsNone a e ≠ .ok (some r) d := by
    intro hok
    obtain ⟨_, _, _, hok⟩ := exists_of_bind hok
    cases hok
  cases hc with
  | openCollection name =>
      obtain ⟨_, _, hopen, hok⟩ := exists_of_bind h
      cases hok
      exact ⟨name, hopen⟩
  | through hr hhandle =>
      cases c with
      | openCollection tx name => cases hhandle
      | createCollection tx name keyPath autoIncrement => cases hhandle
      | _ => exact absurd h hnone
  | _ => exact absurd h hnone

theorem EngineCall.through?_of_handle {c : EngineCall} {r : StoreRef} (h : c.handle? = some r) :
    c.through? = some r.transaction := by
  cases c with
  | collectionNames tx => cases h
  | openCollection tx name => cases h
  | createCollection tx name keyPath autoIncrement => cases h
  | deleteCollection tx name => cases h
  | _ => exact congrArg (Option.map StoreRef.transaction) h

/-- What is changed through a handle is changed in its collection; outside an upgrade that is a change of
records. -/
theorem EngineCall.isOfRecords_of_change {c : EngineCall} {r : StoreRef} (hc : c.handle? = some r)
    {mode : Mode} (hmode : mode ≠ .versionchange) {k : Contents} {change : String × Change}
    (h : c.change? mode k = some change) : change.1 = r.name ∧ change.2.isOfRecords = true := by
  have hdeletion {r : StoreRef} {query : Value} (h : r.deletion? query = some change) :
      change.1 = r.name ∧ change.2.isOfRecords = true := by
    unfold StoreRef.deletion? at h
    split at h
    · cases h
    split at h
    · cases h
    · cases h
      exact ⟨rfl, rfl⟩
  cases c with
  | add r value key =>
      cases hc
      cases h
      exact ⟨rfl, rfl⟩
  | put r value key =>
      cases hc
      cases h
      exact ⟨rfl, rfl⟩
  | clear r =>
      cases hc
      cases h
      exact ⟨rfl, rfl⟩
  | delete r query =>
      cases hc
      exact hdeletion h
  | updateCursor cursor value =>
      cases hc
      change cursor.writing? value = some change at h
      unfold CursorRef.writing? at h
      split at h
      · cases h
      split at h
      · cases h
        exact ⟨rfl, rfl⟩
      split at h
      · cases h
      · cases h
        exact ⟨rfl, rfl⟩
  | deleteAtCursor cursor =>
      cases hc
      change cursor.deletion? = some change at h
      unfold CursorRef.deletion? at h
      split at h
      · cases h
      · exact hdeletion h
  | createIndex r name keyPath unique multiEntry =>
      rw [change?, if_neg hmode] at h
      cases h
  | deleteIndex r name =>
      rw [change?, if_neg hmode] at h
      cases h
  | createCollection tx name keyPath autoIncrement => cases hc
  | deleteCollection tx name => cases hc
  | _ => cases h

namespace Action

variable {e d : Engine} {tx : Nat}

/-- Outside an upgrade a handle is of a collection in the scope. -/
theorem mem_scope_of_openCollection (hmode : (e.transaction tx).mode ≠ .versionchange) {name : Value}
    {r : StoreRef} (h : openCollection tx name e = .ok r d) :
    r.transaction = tx ∧ r.name ∈ (e.transaction tx).scope := by
  have htransaction : transaction tx e = .ok (e.transaction tx) e := rfl
  obtain ⟨text, rfl⟩ := exists_text_of_openCollection h
  obtain ⟨_, _, _, _, rfl⟩ := openCollection_of_ok hmode h
  rw [openCollection_eq, bind_of_ok htransaction, if_neg hmode, pure_bind, modify_bind] at h
  obtain ⟨_, _, _, h⟩ := exists_of_bind (a := ensureActive tx) h
  obtain ⟨hscope, _⟩ := passed_of_guard h
  obtain ⟨other, hother, hname⟩ := List.any_eq_true.1 (by simpa using hscope)
  cases Value.eq_text_of_equals hname
  exact ⟨rfl, hother⟩

end Action

/-! ### Beginning and ending -/

namespace Engine

variable {e d : Engine} {tx : Nat}

/-- What the beginning or the end of a transaction can come to. -/
inductive Turns (e : Engine) (tx : Nat) : Engine → Prop
  | refused : Turns e tx e
  | hindered (hnew : (e.transaction tx).isStarted = false) :
      Turns e tx (e.setTransaction tx { e.transaction tx with isStarted := true })
  | begun (hready : e.IsReady tx) : Turns e tx (e.begun tx)
  | closed : Turns e tx (e.setTransaction tx { e.transaction tx with isActive := false })
  | ended (notices : List Notice) (hactive : (e.transaction tx).isActive = true) :
      Turns e tx { e.ended tx with notices := notices }
  | committed {s : Store} (hs : e.draft? tx = some s) : Turns e tx (e.committed tx s)

end Engine

namespace Action

variable {e : Engine} {tx : Nat}

/-- An action that only begins or ends a transaction. -/
abbrev TurnsFrom (a : Action Unit) (e : Engine) (tx : Nat) : Prop :=
  a.Meets (· = e) (fun _ => e.Turns tx) (e.Turns tx)

theorem turns_begin (e : Engine) (tx : Nat) : TurnsFrom (begin tx) e tx := by
  rintro d rfl
  rw [begin_run]
  by_cases hstarted : (d.transaction tx).isStarted = true
  · rw [if_pos hstarted]
    exact .refused
  · rw [if_neg hstarted]
    have hnew := Bool.eq_false_iff.2 hstarted
    cases hhindrance : d.hindrance tx with
    | some f => exact .hindered hnew
    | none => exact .begun (isReady_iff.2 ⟨hnew, hhindrance⟩)

theorem turns_commit (e : Engine) (tx : Nat) : TurnsFrom (commit tx) e tx := by
  refine meets_ensureActive_bind .refused fun t ht hactive => ?_
  subst ht
  refine meets_bind_of_ok rfl (meets_statement_bind .closed fun c hc hopen => ?_)
  change c = e.connection (e.transaction tx).connection at hc
  subst hc
  cases hw : (e.connection (e.transaction tx).connection).work with
  | writing draft =>
      refine meets_bind_of_ok rfl (meets_modify ?_)
      rintro _ rfl
      exact .committed (Engine.draft?_eq_some_iff.2 ⟨hactive, hopen, hw⟩)
  | _ =>
      refine meets_bind_of_ok rfl (meets_modify ?_)
      rintro _ rfl
      exact .ended e.notices hactive

theorem turns_abort (e : Engine) (tx : Nat) (error : Option String) :
    TurnsFrom (abort tx error) e tx := by
  have hended {d : Engine} (h : ∃ notices, d = { e.ended tx with notices := notices })
      (hactive : (e.transaction tx).isActive = true) : e.Turns tx d := by
    obtain ⟨notices, rfl⟩ := h
    exact .ended notices hactive
  have htold (id : Nat) (event : Event) : (dispatch id event).Keeps fun d =>
      ∃ notices, d = { e.ended tx with notices := notices } := by
    refine (onlyTells_dispatch id event).keeps ?_
    rintro _ notices ⟨_, rfl⟩
    exact ⟨notices, rfl⟩
  refine meets_transaction_bind fun t ht => ?_
  subst ht
  refine meets_ite (fun hactive => ?_) fun _ => meets_pure fun _ hd => hd ▸ .refused
  refine meets_bind_of_ok rfl (meets_statement_bind .closed fun c hc hopen => ?_)
  subst hc
  refine meets_bind (Q := fun _ d => ∃ notices, d = { e.ended tx with notices := notices })
    (meets_modify ?_) fun _ => ?_
  · rintro _ rfl
    exact ⟨e.notices, rfl⟩
  · refine Meets.imp ?_ (fun _ hd => hd) (fun _ _ hd => hended hd hactive) fun _ hd => hended hd hactive
    exact meets_ite (fun _ => keeps_bind (htold _ _) fun _ => htold _ _) fun _ => htold _ _

end Action

/-! ### Staying within the bounds -/

namespace Engine

/-- Nothing has changed but what a transaction has under way and whether it is started and active. -/
structure DiffersAt (tx : Nat) (e d : Engine) : Prop where
  connection : (d.transaction tx).connection = (e.transaction tx).connection
  mode : (d.transaction tx).mode = (e.transaction tx).mode
  scope : (d.transaction tx).scope = (e.transaction tx).scope
  others : ∀ id, id ≠ (e.transaction tx).connection → d.connection id = e.connection id
  path : (d.connection (e.transaction tx).connection).path =
    (e.connection (e.transaction tx).connection).path

/-- A transaction has changed only what it may: of the stores its own, and its draft. -/
structure IsWithin (tx : Nat) (e d : Engine) : Prop extends e.DiffersAt tx d where
  orderly : d.IsOrderly
  elsewhere : ∀ path, path ≠ (e.connection (e.transaction tx).connection).path →
    d.store path = e.store path
  kept : (e.transaction tx).MayLeave (e.store (e.connection (e.transaction tx).connection).path)
    (d.store (e.connection (e.transaction tx).connection).path)
  draft : ∀ s, d.draft? tx = some s →
    (e.transaction tx).MayLeave (e.store (e.connection (e.transaction tx).connection).path) s

variable {e d d' : Engine} {tx : Nat}

theorem DiffersAt.refl (tx : Nat) (e : Engine) : e.DiffersAt tx e := ⟨rfl, rfl, rfl, fun _ _ => rfl, rfl⟩

theorem DiffersAt.trans (h : e.DiffersAt tx d) (h' : d.DiffersAt tx d') : e.DiffersAt tx d' where
  connection := h'.connection.trans h.connection
  mode := h'.mode.trans h.mode
  scope := h'.scope.trans h.scope
  others id hid := (h'.others id (h.connection ▸ hid)).trans (h.others id hid)
  path := by
    have hpath := h'.path
    rw [h.connection] at hpath
    exact hpath.trans h.path

/-- Only the connections and the transactions count. -/
theorem DiffersAt.congr (h : e.DiffersAt tx d) (hc : d'.connections = d.connections)
    (ht : d'.transactions = d.transactions) : e.DiffersAt tx d' :=
  h.trans ⟨by rw [transaction_congr ht], by rw [transaction_congr ht], by rw [transaction_congr ht],
    fun id _ => connection_congr hc id, by rw [connection_congr hc]⟩

theorem differsAt_setTransaction (e : Engine) (tx : Nat) (started active : Bool) : e.DiffersAt tx
    (e.setTransaction tx { e.transaction tx with isStarted := started, isActive := active }) := by
  have hself := transaction_setTransaction e tx
    { e.transaction tx with isStarted := started, isActive := active } tx
  refine ⟨?_, ?_, ?_, fun _ _ => rfl, rfl⟩
  all_goals rcases hself with heq | ⟨_, heq⟩ <;> rw [heq]

theorem differsAt_rework (e : Engine) (tx : Nat) (w : Work) : e.DiffersAt tx (e.rework tx w) :=
  ⟨rfl, rfl, rfl, fun _ hid => connection_setConnection_of_ne hid,
    connection_setConnection_congr Connection.path (by rfl) _⟩

theorem differsAt_ended (e : Engine) (tx : Nat) : e.DiffersAt tx (e.ended tx) :=
  (differsAt_rework e tx .idle).trans (differsAt_setTransaction (e.rework tx .idle) tx _ false)

theorem Turns.differsAt (h : e.Turns tx d) : e.DiffersAt tx d := by
  cases h with
  | refused => exact .refl tx e
  | hindered => exact differsAt_setTransaction e tx true _
  | begun => exact (differsAt_rework e tx _).trans (differsAt_setTransaction (e.rework tx _) tx true true)
  | closed => exact differsAt_setTransaction e tx _ false
  | ended => exact (differsAt_ended e tx).congr rfl rfl
  | committed => exact (differsAt_ended e tx).congr rfl rfl

theorem isWithin_self (horderly : e.IsOrderly) (hnone : e.draft? tx = none) : e.IsWithin tx e :=
  { DiffersAt.refl tx e with
    orderly := horderly
    elsewhere := fun _ _ => rfl
    kept := Transaction.mayLeave_refl _ _
    draft := fun _ hs => nomatch hnone.symm.trans hs }

/-- A step that keeps no store. -/
theorem IsWithin.step (h : e.IsWithin tx d) (horderly : d'.IsOrderly) (hdiffers : d.DiffersAt tx d')
    (hstores : d'.stores = d.stores) (hdraft : ∀ s, d'.draft? tx = some s →
      (e.transaction tx).MayLeave (e.store (e.connection (e.transaction tx).connection).path) s) :
    e.IsWithin tx d' :=
  { h.toDiffersAt.trans hdiffers with
    orderly := horderly
    elsewhere := fun path hpath => (store_congr hstores path).trans (h.elsewhere path hpath)
    kept := store_congr hstores _ ▸ h.kept
    draft := hdraft }

theorem draft?_of_inactive (h : (e.transaction tx).isActive = false) : e.draft? tx = none :=
  Option.eq_none_iff_forall_ne_some.2 fun _ hs =>
    Bool.false_ne_true (h.symm.trans (draft?_eq_some_iff.1 hs).active)

theorem draft?_ended (hactive : (e.transaction tx).isActive = true) : (e.ended tx).draft? tx = none :=
  draft?_of_inactive (congrArg Transaction.isActive (transaction_setTransaction_self (lt_of_isActive hactive)))

/-- A transaction gets no draft by a change of its record. -/
theorem draft?_of_setTransaction {t : Transaction} {s : Store}
    (hs : (e.setTransaction tx t).draft? tx = some s)
    (hconnection : t.connection = (e.transaction tx).connection)
    (hactive : t.isActive = true → (e.transaction tx).isActive = true) : e.draft? tx = some s := by
  obtain ⟨ha, hopen, hwork⟩ := draft?_eq_some_iff.1 hs
  rcases transaction_setTransaction e tx t tx with heq | ⟨_, heq⟩
  · rw [heq] at ha hopen hwork
    exact draft?_eq_some_iff.2 ⟨ha, hopen, hwork⟩
  · rw [heq] at ha hopen hwork
    rw [hconnection] at hopen hwork
    exact draft?_eq_some_iff.2 ⟨hactive ha, hopen, hwork⟩

/-- The draft with which a transaction begins is the store that is kept. -/
theorem draft?_begun {s : Store} (hready : e.IsReady tx) (hs : (e.begun tx).draft? tx = some s) :
    s = e.store (e.connection (e.transaction tx).connection).path := by
  have hwork := (draft?_eq_some_iff.1 hs).work
  rw [(Turns.begun hready).differsAt.connection, work_begun hready.isOpen] at hwork
  split at hwork
  · cases hwork
  · cases hwork
    rfl

theorem IsWithin.path_connection (h : e.IsWithin tx d) : (d.connection (d.transaction tx).connection).path =
    (e.connection (e.transaction tx).connection).path := by
  rw [h.connection]
  exact h.path

/-- The beginning and the end of a transaction. -/
theorem IsWithin.turn (h : e.IsWithin tx d) (horderly : d'.IsOrderly) (hturns : d.Turns tx d') :
    e.IsWithin tx d' := by
  have hdiffers := hturns.differsAt
  cases hturns with
  | refused => exact h
  | hindered => exact h.step horderly hdiffers rfl fun s hs => h.draft s (draft?_of_setTransaction hs rfl id)
  | closed => exact h.step horderly hdiffers rfl fun s hs => h.draft s (draft?_of_setTransaction hs rfl nofun)
  | begun hready =>
      refine h.step horderly hdiffers rfl fun s hs => ?_
      rw [draft?_begun hready hs, h.path_connection]
      exact h.kept
  | ended notices hactive =>
      refine h.step horderly hdiffers rfl fun s hs => ?_
      cases (draft?_ended hactive).symm.trans hs
  | @committed s hs =>
      have hnone : (d.committed tx s).draft? tx = none :=
        draft?_ended (e := d.keep _ s) (draft?_eq_some_iff.1 hs).active
      have hkept (path : String) : (d.committed tx s).store path =
          (d.keep (d.connection (d.transaction tx).connection).path s).store path := rfl
      refine { h.toDiffersAt.trans hdiffers with
        orderly := horderly, elsewhere := fun path hother => ?_, kept := ?_, draft := fun s' hs' => ?_ }
      · rw [hkept, store_keep_of_ne (by rwa [h.path_connection])]
        exact h.elsewhere path hother
      · rw [hkept, h.path_connection, store_keep_self]
        exact h.draft s hs
      · cases hnone.symm.trans hs'

end Engine

namespace EngineCall

variable {e d : Engine} {tx : Nat} {c : EngineCall}

/-- Outside an upgrade a call through a transaction changes at most what the transaction has under way. -/
theorem differsAt_run (hc : c.through? = some tx) (hmode : (e.transaction tx).mode ≠ .versionchange) :
    e.DiffersAt tx (c.run.after e) ∧ (c.run.after e).stores = e.stores := by
  have hrecords : c.run.Keeps fun d => d.transactions = e.transactions := by
    have hread : (Action.read tx).Keeps fun d => d.transactions = e.transactions :=
      Action.keeps_read fun _ _ hd _ => hd
    refine keeps_run_of_through hc hread (fun change => ?_) fun name => ?_
    · exact Action.meets_write (fun _ hd => hd) (fun _ _ hd _ _ => hd) fun _ hd _ => hd
    · refine Action.keeps_openCollection (fun d hd => ?_) hread name
      rw [Engine.transaction_congr hd]
      exact hmode
  have hreach : Engine.IsKeptInReach tx fun d =>
      ((d.transaction tx).connection = (e.transaction tx).connection ∧
        (∀ id, id ≠ (e.transaction tx).connection → d.connection id = e.connection id) ∧
        (d.connection (e.transaction tx).connection).path =
          (e.connection (e.transaction tx).connection).path) ∧ d.stores = e.stores := by
    refine ⟨fun {d w} ⟨⟨hconnection, hothers, hpath⟩, hstores⟩ => ⟨⟨hconnection, fun id hid => ?_, ?_⟩, hstores⟩,
      fun {d t} ⟨⟨hconnection, hothers⟩, hstores⟩ ht => ⟨⟨?_, hothers⟩, hstores⟩, fun hd => hd⟩
    · rw [(Engine.differsAt_rework d tx w).others id (hconnection ▸ hid)]
      exact hothers id hid
    · have hsame := (Engine.differsAt_rework d tx w).path
      rw [hconnection] at hsame
      exact hsame.trans hpath
    · rcases Engine.transaction_setTransaction d tx t tx with heq | ⟨_, heq⟩
      · rw [heq, hconnection]
      · rw [heq, ht, hconnection]
  have hsame := Engine.transaction_congr (hrecords.after rfl) tx
  obtain ⟨⟨hconnection, hothers, hpath⟩, hstores⟩ :=
    (Action.keeps_run_in_reach hreach hc).after ⟨⟨rfl, fun _ _ => rfl, rfl⟩, rfl⟩
  exact ⟨⟨hconnection, congrArg Transaction.mode hsame, congrArg Transaction.scope hsame, hothers, hpath⟩,
    hstores⟩

/-- A call through a transaction and a handle of a collection in its scope, or through no handle. -/
theorem isWithin_run (h : e.IsWithin tx d) (hmode : (e.transaction tx).mode ≠ .versionchange)
    (hc : c.through? = some tx)
    (hchange : ∀ k change, c.change? (d.transaction tx).mode k = some change →
      change.1 ∈ (e.transaction tx).scope ∧ change.2.isOfRecords = true) :
    e.IsWithin tx (c.run.after d) := by
  have hmode' : (d.transaction tx).mode ≠ .versionchange := h.mode ▸ hmode
  obtain ⟨hdiffers, hstores⟩ := differsAt_run hc hmode'
  refine h.step (c.isOrderly_run.after h.orderly) hdiffers hstores fun s' hs' => ?_
  cases hs : d.draft? tx with
  | none =>
      have hnone := ((keeps_run_of_no_draft hc Engine.isStable_true).after ⟨trivial, hs⟩).2
      cases hnone.symm.trans hs'
  | some s =>
      have hreads := h.orderly.mode_ne_readonly hs
      obtain ⟨scope, hafter, _⟩ := (Effect.Meets.after ((meets_run_of_draft hc hs hreads).imp
        (fun _ hd => hd) (fun _ _ hd => hd.1) fun _ hd => hd) rfl).eq
      rw [hafter] at hs'
      cases (Engine.draft?_rescope (Engine.draft?_redraft hs _) scope).symm.trans hs'
      refine ⟨fun hread => absurd (h.mode.trans hread) hreads, fun hwrite => ?_⟩
      have hagrees := (h.draft s hs).readwrite hwrite
      cases hmade : c.change? (d.transaction tx).mode s.contents with
      | none => exact hagrees
      | some change =>
          obtain ⟨hname, hrecords⟩ := hchange _ _ hmade
          exact hagrees.changed hname hrecords

end EngineCall

namespace Usage

variable {e : Engine} {tx : Nat} {u : Usage}

/-- What is so from the first use of a transaction on. -/
structure IsBounded (tx : Nat) (e : Engine) (u : Usage) : Prop where
  engine : e.IsWithin tx u.engine
  handles : ∀ r ∈ u.handles, r.transaction = tx ∧ r.name ∈ (e.transaction tx).scope

/-- Each use of a transaction stays within its bounds. -/
theorem isBounded_next (h : u.IsBounded tx e) (hmode : (e.transaction tx).mode ≠ .versionchange)
    {c : EngineCall} (hc : c.IsUse tx u.handles) : (u.next c).IsBounded tx e := by
  have horderly : (c.run.after u.engine).IsOrderly := c.isOrderly_run.after h.engine.orderly
  have hturn {a : Action Unit} (hrun : c.run = EngineCall.obtainsNone a)
      (ha : Action.TurnsFrom a u.engine tx) : e.IsWithin tx (c.run.after u.engine) := by
    have hmeets : c.run.Meets (· = u.engine) (fun _ => u.engine.Turns tx) (u.engine.Turns tx) := by
      rw [hrun]
      exact EngineCall.meets_obtainsNone ha fun _ _ hd => hd
    exact h.engine.turn horderly (hmeets.after rfl)
  have hengine : e.IsWithin tx (c.run.after u.engine) := by
    cases hc with
    | begin => exact hturn rfl (Action.turns_begin _ _)
    | commit => exact hturn rfl (Action.turns_commit _ _)
    | abort error => exact hturn rfl (Action.turns_abort _ _ error)
    | collectionNames => exact EngineCall.isWithin_run h.engine hmode rfl fun _ _ h => nomatch h
    | openCollection name => exact EngineCall.isWithin_run h.engine hmode rfl fun _ _ h => nomatch h
    | @through c r hr hhandle =>
        obtain ⟨htx, hname⟩ := h.handles r hr
        have hthrough := EngineCall.through?_of_handle hhandle
        rw [htx] at hthrough
        refine EngineCall.isWithin_run h.engine hmode hthrough fun k change hchange => ?_
        obtain ⟨hsame, hrecords⟩ := EngineCall.isOfRecords_of_change hhandle (h.engine.mode ▸ hmode) hchange
        exact ⟨hsame ▸ hname, hrecords⟩
  refine ⟨u.engine_next c ▸ hengine, ?_⟩
  unfold next
  cases hrun : c.run u.engine with
  | error f d => exact h.handles
  | ok obtained d =>
      intro r hr
      rcases List.mem_append.1 hr with hwas | hnew
      · exact h.handles r hwas
      · cases Option.mem_toList.1 hnew
        obtain ⟨name, hopen⟩ := EngineCall.exists_openCollection_of_obtained hc hrun
        obtain ⟨htx, hname⟩ := Action.mem_scope_of_openCollection (h.engine.mode ▸ hmode) hopen
        exact ⟨htx, h.engine.scope ▸ hname⟩

theorem isBounded_of_isReached (horderly : e.IsOrderly) (hnone : e.draft? tx = none)
    (hmode : (e.transaction tx).mode ≠ .versionchange) (h : u.IsReached tx e) : u.IsBounded tx e := by
  induction h with
  | start => exact ⟨Engine.isWithin_self horderly hnone, nofun⟩
  | next _ hc ih => exact isBounded_next ih hmode hc

/-- A transaction that is no upgrade stays within its bounds, however it is used: all other connections are as
they were. If it only reads, so are all stores. If it writes, so are all stores but its own, of which the
version and the catalog are as they were, and every collection that is not in the scope, with its records,
its entries and its generator. -/
theorem isReached_confined (horderly : e.IsOrderly) (hnone : e.draft? tx = none)
    (hmode : (e.transaction tx).mode ≠ .versionchange) (h : u.IsReached tx e) :
    (∀ id, id ≠ (e.transaction tx).connection → u.engine.connection id = e.connection id) ∧
      ((e.transaction tx).mode = .readonly → ∀ path, u.engine.store path = e.store path) ∧
      ((e.transaction tx).mode = .readwrite → ∀ path,
        (path ≠ (e.connection (e.transaction tx).connection).path →
          u.engine.store path = e.store path) ∧
        (e.store path).AgreesOutside (e.transaction tx).scope (u.engine.store path)) := by
  have hwithin := (isBounded_of_isReached horderly hnone hmode h).engine
  refine ⟨hwithin.others, fun hread path => ?_, fun hwrite path => ⟨hwithin.elsewhere path, ?_⟩⟩
  · by_cases hpath : path = (e.connection (e.transaction tx).connection).path
    · rw [hpath]
      exact hwithin.kept.readonly hread
    · exact hwithin.elsewhere path hpath
  · by_cases hpath : path = (e.connection (e.transaction tx).connection).path
    · rw [hpath]
      exact hwithin.kept.readwrite hwrite
    · rw [hwithin.elsewhere path hpath]
      exact .refl _ _

/-- The use of a transaction that writes a record with a generated key and commits it. -/
def notesUsed : Usage :=
  (⟨Action.notesReady, []⟩ : Usage)
    |>.next (.begin 1)
    |>.next (.openCollection 1 (.text "notes"))
    |>.next (.put Action.notes (.text "first") .null)
    |>.next (.commit 1)

theorem isReached_confined_notes : Action.notesReady.IsOrderly ∧ Action.notesReady.draft? 1 = none ∧
    (Action.notesReady.transaction 1).mode ≠ .versionchange ∧ notesUsed.IsReached 1 Action.notesReady ∧
    (∀ id, id ≠ (Action.notesReady.transaction 1).connection →
      notesUsed.engine.connection id = Action.notesReady.connection id) ∧
    ((Action.notesReady.transaction 1).mode = .readonly →
      ∀ path, notesUsed.engine.store path = Action.notesReady.store path) ∧
    ((Action.notesReady.transaction 1).mode = .readwrite → ∀ path,
      (path ≠ (Action.notesReady.connection (Action.notesReady.transaction 1).connection).path →
        notesUsed.engine.store path = Action.notesReady.store path) ∧
      (Action.notesReady.store path).AgreesOutside (Action.notesReady.transaction 1).scope
        (notesUsed.engine.store path)) := by
  have horderly : Action.notesReady.IsOrderly :=
    Engine.isOrderly_of_isReachable (Engine.isReachable_afterCalls .initial _)
  have hnone : Action.notesReady.draft? 1 = none :=
    Engine.draft?_of_inactive (by decide +kernel)
  have hmode : (Action.notesReady.transaction 1).mode ≠ .versionchange := by decide +kernel
  have hreached : notesUsed.IsReached 1 Action.notesReady := by
    unfold notesUsed
    refine .next (.next (.next (.next .start .begin) (.openCollection _)) (.through ?_ rfl)) .commit
    decide +kernel
  exact ⟨horderly, hnone, hmode, hreached, isReached_confined horderly hnone hmode hreached⟩

end Usage
end RecordStore
