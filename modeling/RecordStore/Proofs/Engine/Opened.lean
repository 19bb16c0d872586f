import RecordStore.Proofs.Engine.Holding
import RecordStore.Proofs.Engine.Reading

/-!
Transactions over one collection, as bodies of work find them. A connection that is open, with nothing
under way, opens one; a run that succeeds has opened one and committed it; a run that fails leaves all
stores alone. What is written through a draft in between becomes of one collection in it alone.
-/

namespace RecordStore

open Effect

/-- A store in which one collection is another one. -/
structure Store.ChangedAt (s : Store) (name : String) (c : Collection) (s' : Store) : Prop where
  version : s'.version = s.version
  own : s'.contents.get name = c
  others : ∀ other, other ≠ name → s'.contents.get other = s.contents.get other

theorem Store.ChangedAt.set {s s' : Store} {name : String} {c : Collection}
    (h : s.ChangedAt name c s') (c' : Collection) :
    s.ChangedAt name c' { s' with contents := s'.contents.set name c' } where
  version := h.version
  own := Contents.get_set_self _ _ _
  others other hother := (Contents.get_set_of_ne hother _ _).trans (h.others other hother)

namespace Action

variable {α : Type} {e d : Engine} {tx db : Nat} {name : String} {mode : Mode}

/-! ### Beginning -/

/-- A new transaction over one collection was made, and is not begun; all else is as it was. -/
structure HasMade (mode : Mode) (db : Nat) (name : String) (tx : Nat) (e d : Engine) : Prop where
  lt : tx < d.transactions.length
  transaction : d.transaction tx = ⟨db, [name], mode, false, false⟩
  connections : d.connections = e.connections
  stores : d.stores = e.stores
  notices : d.notices = e.notices

theorem HasMade.connection (h : HasMade mode db name tx e d) (id : Nat) :
    d.connection id = e.connection id := by
  rw [Engine.connection, h.connections]
  rfl

theorem HasMade.store (h : HasMade mode db name tx e d) (path : String) : d.store path = e.store path :=
  Engine.store_congr h.stores path

/-- A transaction that is opened over one collection that the connection knows. -/
theorem openTransaction_run (hmode : mode = .readonly ∨ mode = .readwrite)
    (hopen : (e.connection db).isClosed = false) (hname : name ∈ (e.connection db).collectionNames) :
    openTransaction db (.text name) (.text mode.name) e = .ok e.transactions.length
      { e with transactions := e.transactions ++ [⟨db, [name], mode, false, false⟩] } := by
  have hconnection : connection db e = .ok (e.connection db) e := rfl
  have hmake : (ofExcept (Key.storeResult (known (e.connection db).collectionNames [.text name])) >>=
      fun scope => make db scope mode) e = .ok e.transactions.length
        { e with transactions := e.transactions ++ [⟨db, [name], mode, false, false⟩] } := by
    rw [known, if_pos (List.contains_iff_mem.2 hname)]
    rfl
  unfold openTransaction
  rw [bind_of_ok hconnection, hopen, if_neg Bool.false_ne_true]
  rcases hmode with rfl | rfl
  · exact hmake
  · exact hmake

/-- Outside an upgrade a collection in the scope is obtained if it is in the catalog of the store that is
read. -/
theorem openCollection_of_read {s : Store} {header : Header}
    (hmode : (e.transaction tx).mode ≠ .versionchange) (hscope : name ∈ (e.transaction tx).scope)
    (hread : read tx e = .ok s d) (hheader : (s.contents.get name).header = some header) :
    openCollection tx (.text name) e = .ok ⟨tx, name, header.keying⟩ d := by
  obtain ⟨w, hw⟩ := hasUnderWay_of_read hread
  have htransaction : transaction tx e = .ok (e.transaction tx) e := rfl
  have hany : (e.transaction tx).scope.any (fun s => (Value.text name).equals (.text s)) = true :=
    List.any_eq_true.2 ⟨name, hscope, beq_self_eq_true name⟩
  rw [openCollection_eq, bind_of_ok htransaction, if_neg hmode, pure_bind, modify_bind]
  change openIn tx (.text name) (e.transaction tx).scope (e.rescope tx (e.transaction tx).scope) = _
  rw [Engine.rescope_self]
  unfold openIn
  rw [bind_of_ok (ensureActive_of_hasUnderWay hw)]
  dsimp only [Value.unhashable?]
  rw [hany, if_neg (by simp)]
  refine (bind_of_ok hread _).trans ?_
  dsimp only [Value.display]
  rw [hheader]
  rfl

/-- What has begun can be read. -/
theorem exists_read_of_begun (hmade : tx < e.transactions.length)
    (hopen : (e.connection (e.transaction tx).connection).isClosed = false) :
    ∃ s b, read tx (e.begun tx) = .ok s b := by
  have hwork := hasUnderWay_begun hmade hopen
  split at hwork
  · exact ⟨_, _, read_of_unread hwork⟩
  · exact ⟨_, _, read_of_draft (Engine.draft?_eq_some_iff.2 hwork)⟩

/-! ### Transactions that succeed -/

theorem within_of_ok {body : Action α} {x : α} (h : within tx body e = .ok x d) :
    ∃ b b', begin tx e = .ok () b ∧ body b = .ok x b' ∧ commit tx b' = .ok () d := by
  obtain ⟨⟨⟩, b, hbegin, h⟩ := exists_of_bind h
  obtain ⟨r, hr⟩ := exists_ending body b
  rw [bind_of_ok (attempt_of_ending hr)] at h
  cases r with
  | error f =>
      -- the failure of the body is thrown again once the transaction is aborted
      obtain ⟨_, _, _, h⟩ := exists_of_bind h
      cases h
  | ok y =>
      obtain ⟨⟨⟩, t, hcommit, h⟩ := exists_of_bind h
      cases h
      exact ⟨b, _, hbegin, hr, hcommit⟩

theorem stores_of_commit {w : Work} (h : e.HasUnderWay tx w) (hcommit : commit tx e = .ok () d) :
    d.stores = (e.keepWork (e.connection (e.transaction tx).connection).path w).stores := by
  cases (commit_run h).symm.trans hcommit
  rfl

/-- A transaction is opened only on an open connection that knows the collection. -/
theorem passed_of_openTransaction (hmode : mode = .readonly ∨ mode = .readwrite)
    (h : openTransaction db (.text name) (.text mode.name) e = .ok tx d) :
    (e.connection db).isClosed = false ∧ name ∈ (e.connection db).collectionNames := by
  have hconnection : connection db e = .ok (e.connection db) e := rfl
  unfold openTransaction at h
  rw [bind_of_ok hconnection] at h
  obtain ⟨hopen, h⟩ := passed_of_guard h
  have hmake : (ofExcept (Key.storeResult (known (e.connection db).collectionNames [.text name])) >>=
      fun scope => make db scope mode) e = .ok tx d := by
    rcases hmode with rfl | rfl
    · exact h
    · exact h
  rw [known] at hmake
  split at hmake
  · next hname => exact ⟨Bool.eq_false_iff.2 hopen, List.contains_iff_mem.1 hname⟩
  · cases hmake

theorem hasMade_of_openTransaction (hmode : mode = .readonly ∨ mode = .readwrite)
    (h : openTransaction db (.text name) (.text mode.name) e = .ok tx d) :
    HasMade mode db name tx e d := by
  obtain ⟨hopen, hname⟩ := passed_of_openTransaction hmode h
  cases (openTransaction_run hmode hopen hname).symm.trans h
  refine ⟨?_, ?_, rfl, rfl, rfl⟩
  · rw [List.length_append]
    exact Nat.lt_succ_self _
  · rw [Engine.transaction, List.getElem?_concat_length]
    rfl

/-- What is obtained under a name that is no text is no collection. -/
theorem exists_text_of_openCollection {tx : Nat} {v : Value} {r : StoreRef}
    (h : openCollection tx v e = .ok r d) : ∃ name, v = .text name := by
  rw [openCollection_eq] at h
  obtain ⟨_, _, _, h⟩ := exists_of_bind h
  obtain ⟨scope, _, _, h⟩ := exists_of_bind h
  obtain ⟨_, _, _, h⟩ := exists_of_bind h
  obtain ⟨_, _, _, h⟩ := exists_of_bind (a := ensureActive tx) h
  cases hhash : v.unhashable? with
  | some k =>
      rw [hhash] at h
      cases h
  | none =>
      rw [hhash] at h
      obtain ⟨hscope, _⟩ := passed_of_guard h
      obtain ⟨name, _, hname⟩ := List.any_eq_true.1 (by simpa using hscope)
      exact ⟨name, Value.eq_text_of_equals hname⟩

/-- Outside an upgrade a collection that was obtained is in the catalog of the store that was read. -/
theorem openCollection_of_ok {store : StoreRef} (hmode : (e.transaction tx).mode ≠ .versionchange)
    (h : openCollection tx (.text name) e = .ok store d) : ∃ s header, read tx e = .ok s d ∧
      (s.contents.get name).header = some header ∧ store = ⟨tx, name, header.keying⟩ := by
  have htransaction : transaction tx e = .ok (e.transaction tx) e := rfl
  rw [openCollection_eq, bind_of_ok htransaction, if_neg hmode, pure_bind, modify_bind] at h
  change openIn tx (.text name) (e.transaction tx).scope (e.rescope tx (e.transaction tx).scope) = _ at h
  rw [Engine.rescope_self] at h
  obtain ⟨t, e', hactive, h⟩ := exists_of_bind h
  rw [ensureActive_run] at hactive
  split at hactive
  · cases hactive
    obtain ⟨_, h⟩ := passed_of_guard h
    obtain ⟨s, d', hread, h⟩ := exists_of_bind h
    simp only [Value.display] at h
    cases hheader : (s.contents.get name).header with
    | none =>
        rw [hheader] at h
        cases h
    | some header =>
        rw [hheader] at h
        cases h
        exact ⟨s, header, hread, hheader, rfl⟩
  · cases hactive

/-- A transaction that has begun reads what is kept under its path first, and then has it under way. -/
theorem read_of_begun {s : Store} {b : Engine} (hmade : tx < e.transactions.length)
    (hopen : (e.connection (e.transaction tx).connection).isClosed = false)
    (hread : read tx (e.begun tx) = .ok s b) :
    s = e.store (e.connection (e.transaction tx).connection).path ∧ b.stores = e.stores ∧
      (b.transaction tx).connection = (e.transaction tx).connection ∧
      (b.transaction tx).mode = (e.transaction tx).mode ∧
      (b.connection (e.transaction tx).connection).path =
        (e.connection (e.transaction tx).connection).path ∧
      b.HasUnderWay tx
        (if (e.transaction tx).mode = .readonly then .reading (some s) else .writing s) := by
  have hwork := hasUnderWay_begun hmade hopen
  have hbegun := transaction_begun hmade
  have hconnection : ((e.begun tx).transaction tx).connection = (e.transaction tx).connection := by
    rw [hbegun]
  have hsame : ((e.begun tx).transaction tx).mode = (e.transaction tx).mode := by rw [hbegun]
  have hpath : ((e.begun tx).connection (e.transaction tx).connection).path =
      (e.connection (e.transaction tx).connection).path :=
    Engine.connection_setConnection_congr Connection.path (by rfl) _
  by_cases hmode : (e.transaction tx).mode = .readonly
  · rw [if_pos hmode] at hwork ⊢
    rw [read_of_unread hwork, hbegun] at hread
    cases hread
    refine ⟨?_, rfl, hconnection, hsame, ?_, ?_⟩
    · exact congrArg e.store hpath
    · exact (Engine.connection_setConnection_congr Connection.path (by rfl) _).trans hpath
    · exact hwork.rework _
  · rw [if_neg hmode] at hwork ⊢
    rw [read_of_draft (Engine.draft?_eq_some_iff.2 hwork)] at hread
    cases hread
    exact ⟨rfl, rfl, hconnection, hsame, hpath, hwork⟩

/-- What a transaction finds once it has begun on an engine and obtained a collection: no store has
changed since, and it has under way the store that was kept then. -/
structure HasOpened (mode : Mode) (db : Nat) (name : String) (header : Header) (tx : Nat)
    (e b : Engine) : Prop where
  found : ((e.store (e.connection db).path).contents.get name).header = some header
  collection : StoreRef.collection ⟨tx, name, header.keying⟩ b =
    .ok ((e.store (e.connection db).path).contents.get name) b
  stores : b.stores = e.stores
  connection : (b.transaction tx).connection = db
  path : (b.connection db).path = (e.connection db).path
  work : b.HasUnderWay tx (if mode = .readonly then .reading (some (e.store (e.connection db).path))
    else .writing (e.store (e.connection db).path))
  mode : (b.transaction tx).mode = mode

/-- A transaction over one collection that has begun and read has opened the collection. -/
theorem HasMade.hasOpened {header : Header} {s : Store} {b : Engine} (h : HasMade mode db name tx e d)
    (hopen : (e.connection db).isClosed = false) (hread : read tx (d.begun tx) = .ok s b)
    (hheader : (s.contents.get name).header = some header) : HasOpened mode db name header tx e b := by
  have hopen' : (d.connection (d.transaction tx).connection).isClosed = false := by
    rw [h.transaction, h.connection]
    exact hopen
  obtain ⟨hs, hkept, hconnection, hmode, hpath, hwork⟩ := read_of_begun h.lt hopen' hread
  rw [h.transaction] at hs hpath hwork hconnection hmode
  rw [h.connection] at hs hpath
  rw [h.store] at hs
  subst hs
  refine ⟨hheader, ?_, hkept.trans h.stores, hconnection, hpath, hwork, hmode⟩
  unfold StoreRef.collection
  rw [bind_of_ok (read_again hread)]
  rfl

theorem mode_ne_versionchange (hmode : mode = .readonly ∨ mode = .readwrite) :
    mode ≠ .versionchange := by
  rcases hmode with rfl | rfl
  · simp
  · simp

/-- What was done on a collection in one transaction was done once the transaction had opened it, and
then committed. -/
theorem exists_opened_of_ok (hmode : mode = .readonly ∨ mode = .readwrite)
    {body : Nat → StoreRef → Action α} {x : α}
    (h : (openTransaction db (.text name) (.text mode.name) >>= fun tx =>
      within tx (openCollection tx (.text name) >>= body tx)) e = .ok x d) :
    ∃ tx header b b', HasOpened mode db name header tx e b ∧
      body tx ⟨tx, name, header.keying⟩ b = .ok x b' ∧ commit tx b' = .ok () d := by
  obtain ⟨tx, d₁, hopened, hwithin⟩ := exists_of_bind h
  have hmade := hasMade_of_openTransaction hmode hopened
  obtain ⟨_, b', hbegin, hbody, hcommit⟩ := within_of_ok hwithin
  obtain ⟨hopen, rfl⟩ := begin_of_ok hbegin
  rw [hmade.transaction, hmade.connection] at hopen
  obtain ⟨store, b, hobtained, hbody⟩ := exists_of_bind hbody
  have hupgrade : ((d₁.begun tx).transaction tx).mode ≠ .versionchange := by
    rw [transaction_begun hmade.lt, hmade.transaction]
    exact mode_ne_versionchange hmode
  obtain ⟨s, header, hread, hheader, rfl⟩ := openCollection_of_ok hupgrade hobtained
  exact ⟨tx, header, b, b', hmade.hasOpened hopen hread hheader, hbody, hcommit⟩

/-! ### Transactions that come to their body -/

/-- On an open connection with nothing under way a transaction over a collection that the connection
knows begins; for writing, there must be no other draft of the store. -/
theorem exists_begun_of_idle (hmode : mode = .readonly ∨ mode = .readwrite)
    (hopen : (e.connection db).isClosed = false) (hidle : (e.connection db).work = .idle)
    (hfree : mode = .readonly ∨ hasOtherWriter e db (e.connection db).path = false)
    (hname : name ∈ (e.connection db).collectionNames) : ∃ tx d, HasMade mode db name tx e d ∧
      openTransaction db (.text name) (.text mode.name) e = .ok tx d ∧
      begin tx d = .ok () (d.begun tx) := by
  have hopened := openTransaction_run hmode hopen hname
  have hmade := hasMade_of_openTransaction hmode hopened
  refine ⟨_, _, hmade, hopened, begin_of_ready ⟨?_, ?_, ?_, ?_⟩⟩
  · rw [hmade.transaction]
  · rw [hmade.transaction, hmade.connection]
    exact hopen
  · rw [hmade.transaction, hmade.connection]
    exact hidle
  · rw [hmade.transaction, hmade.connection]
    exact hfree

/-- If the collection is in the catalog, the transaction comes to its body, and all that is left is to
conclude it. -/
theorem exists_opened_of_idle (hmode : mode = .readonly ∨ mode = .readwrite)
    (hopen : (e.connection db).isClosed = false) (hidle : (e.connection db).work = .idle)
    (hfree : mode = .readonly ∨ hasOtherWriter e db (e.connection db).path = false)
    (hname : name ∈ (e.connection db).collectionNames) {header : Header}
    (hheader : ((e.store (e.connection db).path).contents.get name).header = some header) :
    ∃ tx b, HasOpened mode db name header tx e b ∧
      ∀ {α : Type} (body : Nat → StoreRef → Action α),
        (openTransaction db (.text name) (.text mode.name) >>= fun tx =>
          within tx (openCollection tx (.text name) >>= body tx)) e =
        (attempt (body tx ⟨tx, name, header.keying⟩) >>= conclude tx) b := by
  obtain ⟨tx, d, hmade, hopened, hbegin⟩ := exists_begun_of_idle hmode hopen hidle hfree hname
  have hopen' : (d.connection (d.transaction tx).connection).isClosed = false := by
    rw [hmade.transaction, hmade.connection]
    exact hopen
  -- what it reads first is what is kept, so it finds the collection in the catalog
  obtain ⟨s, b, hread⟩ := exists_read_of_begun hmade.lt hopen'
  have hs : s = e.store (e.connection db).path := by
    rw [(read_of_begun hmade.lt hopen' hread).1, hmade.transaction, hmade.connection, hmade.store]
  subst hs
  have hbegun := transaction_begun hmade.lt
  rw [hmade.transaction] at hbegun
  have hobtained : openCollection tx (.text name) (d.begun tx) = .ok ⟨tx, name, header.keying⟩ b := by
    refine openCollection_of_read ?_ ?_ hread hheader
    · rw [hbegun]
      exact mode_ne_versionchange hmode
    · rw [hbegun]
      exact List.mem_singleton_self name
  refine ⟨tx, b, hmade.hasOpened hopen hread hheader, fun body => ?_⟩
  obtain ⟨r, hr⟩ := exists_ending (body tx ⟨tx, name, header.keying⟩) b
  rw [bind_of_ok hopened, within, bind_of_ok hbegin, bind_of_ok (attempt_of_ending hr),
    bind_of_ok ((attempt_bind_of_ok hobtained _).trans (attempt_of_ending hr))]

/-- What is committed of a draft is kept under the path of its connection. -/
theorem HasOpened.store_of_commit {header : Header} {b : Engine} {s : Store}
    (h : HasOpened .readwrite db name header tx e b)
    (hcommit : commit tx (b.redraft tx s) = .ok () d) (other : String) :
    d.store other = (e.keep (e.connection db).path s).store other := by
  have hwork : b.HasUnderWay tx (.writing (e.store (e.connection db).path)) := h.work
  have hpath : ((b.redraft tx s).connection (b.transaction tx).connection).path =
      (e.connection db).path := by
    rw [h.connection, ← h.path]
    exact Engine.connection_setConnection_congr Connection.path (by rw [h.connection]) _
  have hcommitted : d.stores = (b.keep (e.connection db).path s).stores := by
    rw [← hpath]
    exact stores_of_commit (hwork.rework (.writing s)) hcommit
  have hkept : (b.keep (e.connection db).path s).stores = (e.keep (e.connection db).path s).stores := by
    simp only [Engine.keep, h.stores]
  exact Engine.store_congr (hcommitted.trans hkept) other

/-! ### Transactions that fail -/

/-- A transaction under way does nothing to the stores. -/
theorem isKeptWithin_stores (e : Engine) (tx : Nat) :
    Engine.IsKeptWithin tx fun b => b.stores = e.stores :=
  ⟨fun h => h, fun h _ => h, fun h => h⟩

theorem keeps_write_within {P : Engine → Prop} {r : StoreRef} (hP : Engine.IsKeptWithin r.transaction P)
    (value key : Value) (overwrite : Bool) : (r.write value key overwrite).Keeps P :=
  StoreRef.meets_write <| StoreRef.keeps_change (keeps_read_within hP) fun change =>
    (meets_write_within hP change).imp (fun _ he => he) (fun _ _ he => he.1) fun _ he => he

/-- A transaction that fails as a whole leaves all stores as they were, if its body does. -/
theorem stores_of_error {collections mode : Value} {body : Nat → Action α} {f : Failure}
    (hbody : ∀ tx, (body tx).Keeps fun b => b.stores = e.stores)
    (h : (openTransaction db collections mode >>= fun tx => within tx (body tx)) e = .error f d) :
    d.stores = e.stores := by
  have hstable : Engine.IsStable fun b => b.stores = e.stores := by
    constructor
    case congr => exact fun h hs _ _ => hs.trans h
    all_goals intros; assumption
  have hconclude (tx : Nat) (r : Except Failure α) :
      (conclude tx r).Meets (·.stores = e.stores) (fun _ _ => True) (·.stores = e.stores) := by
    cases r with
    | error f => exact meets_bind (keeps_abort_within (isKeptWithin_stores e tx) _) fun _ => keeps_throw f
    | ok result =>
        refine meets_bind (meets_commit Engine.isStable_true hstable (fun _ h => h)
          (fun _ _ _ _ _ _ => trivial) fun _ _ _ => trivial) fun _ => meets_pure fun _ _ => trivial
  have hall : (openTransaction db collections mode >>= fun tx => within tx (body tx)).Meets
      (·.stores = e.stores) (fun _ _ => True) (·.stores = e.stores) := by
    refine meets_bind (keeps_openTransaction hstable db _ _) fun tx => ?_
    refine meets_bind (keeps_begin_within (isKeptWithin_stores e tx)) fun _ => ?_
    exact meets_bind (keeps_attempt (hbody tx)) (hconclude tx)
  exact hall.of_error rfl h

end Action

/-! ### What is drafted of one collection -/

namespace Engine

variable {e d : Engine} {r : StoreRef} {s : Store} {c : Collection}

/-- States in which the draft of a transaction has changed in one collection. -/
def HasDrafted (e : Engine) (r : StoreRef) (s : Store) (c : Collection) (d : Engine) : Prop :=
  ∃ s', d = e.redraft r.transaction s' ∧ s.ChangedAt r.name c s'

theorem hasDrafted_self (h : e.draft? r.transaction = some s) :
    e.HasDrafted r s (s.contents.get r.name) e :=
  ⟨s, (redraft_self h).symm, rfl, rfl, fun _ _ => rfl⟩

/-- A write to a collection that was drafted is a write of the draft. -/
theorem HasDrafted.write_run (h : e.draft? r.transaction = some s)
    (hmode : (e.transaction r.transaction).mode ≠ .readonly) (hd : e.HasDrafted r s c d)
    (value key : Value) (overwrite : Bool) : ∃ d', e.HasDrafted r s
      (c.write r.name r.keying value key overwrite).2 d' ∧
      r.write value key overwrite d = ending (c.write r.name r.keying value key overwrite).1 d' := by
  obtain ⟨s', rfl, hchanged⟩ := hd
  have hdraft : (e.redraft r.transaction s').draft? r.transaction = some s' := draft?_redraft h s'
  refine ⟨_, ⟨_, redraft_redraft h s' _, hchanged.set _⟩, ?_⟩
  unfold StoreRef.write
  rw [bind_of_ok (Action.ensureWritable_of_draft hdraft hmode), StoreRef.change_of_draft hdraft,
    hchanged.own]

end Engine
end RecordStore
