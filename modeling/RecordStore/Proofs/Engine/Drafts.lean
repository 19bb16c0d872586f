import RecordStore.Proofs.Engine.Access

/-!
Drafts of transactions. A transaction that has a draft reads just the draft, and changes nothing
else; what such a transaction does is told exactly by what becomes of its draft. One without a draft
changes neither a draft nor a store that is kept.
-/

namespace RecordStore

open Effect

namespace Engine

/-- The draft of an active transaction on an open connection. -/
def draft? (e : Engine) (tx : Nat) : Option Store :=
  let t := e.transaction tx
  let c := e.connection t.connection
  match t.isActive, c.isClosed, c.work with
  | true, false, .writing s => some s
  | _, _, _ => none

/-- Gives the connection of a transaction something else to have under way. -/
def rework (e : Engine) (tx : Nat) (w : Work) : Engine :=
  let id := (e.transaction tx).connection
  e.setConnection id { e.connection id with work := w }

/-- Gives a transaction another draft. -/
def redraft (e : Engine) (tx : Nat) (s : Store) : Engine := e.rework tx (.writing s)

/-- Gives a transaction another scope. -/
def rescope (e : Engine) (tx : Nat) (scope : List String) : Engine :=
  e.setTransaction tx { e.transaction tx with scope := scope }

/-- Keeps a draft, if it is one. -/
def keepWork (e : Engine) (path : String) : Work → Engine
  | .writing s => e.keep path s
  | _ => e

/-- After a transaction has kept a store and ended. -/
def committed (e : Engine) (tx : Nat) (s : Store) : Engine :=
  (e.keep (e.connection (e.transaction tx).connection).path s).ended tx

/-- A transaction is active, and its open connection has something under way. -/
structure HasUnderWay (e : Engine) (tx : Nat) (w : Work) : Prop where
  active : (e.transaction tx).isActive = true
  isOpen : (e.connection (e.transaction tx).connection).isClosed = false
  work : (e.connection (e.transaction tx).connection).work = w

variable {e : Engine} {tx : Nat} {w : Work} {s : Store}

theorem connection_rework_self (h : e.HasUnderWay tx w) (w' : Work) :
    (e.rework tx w').connection (e.transaction tx).connection =
      { e.connection (e.transaction tx).connection with work := w' } :=
  connection_setConnection_self h.isOpen

theorem HasUnderWay.rework (h : e.HasUnderWay tx w) (w' : Work) :
    (e.rework tx w').HasUnderWay tx w' where
  active := h.active
  isOpen := (congrArg Connection.isClosed (connection_rework_self h w')).trans h.isOpen
  work := congrArg Connection.work (connection_rework_self h w')

theorem rework_rework (h : e.HasUnderWay tx w) (w₁ w₂ : Work) :
    (e.rework tx w₁).rework tx w₂ = e.rework tx w₂ := by
  change (e.rework tx w₁).setConnection (e.transaction tx).connection
    { (e.rework tx w₁).connection (e.transaction tx).connection with work := w₂ } = _
  rw [connection_rework_self h]
  simp only [Engine.rework, setConnection, List.set_set]

theorem rework_self (h : e.HasUnderWay tx w) : e.rework tx w = e := by
  simp only [Engine.rework, ← h.work]
  exact setConnection_self h.isOpen

theorem draft?_eq_some_iff : e.draft? tx = some s ↔ e.HasUnderWay tx (.writing s) := by
  unfold draft?
  constructor
  · intro h
    dsimp only at h
    split at h
    · next hactive hopen hwork =>
      cases h
      exact ⟨hactive, hopen, hwork⟩
    · cases h
  · rintro ⟨hactive, hopen, hwork⟩
    simp only [hactive, hopen, hwork]

theorem draft?_redraft (h : e.draft? tx = some s) (s' : Store) :
    (e.redraft tx s').draft? tx = some s' :=
  draft?_eq_some_iff.2 ((draft?_eq_some_iff.1 h).rework _)

theorem redraft_redraft (h : e.draft? tx = some s) (s₁ s₂ : Store) :
    (e.redraft tx s₁).redraft tx s₂ = e.redraft tx s₂ :=
  rework_rework (draft?_eq_some_iff.1 h) _ _

theorem redraft_self (h : e.draft? tx = some s) : e.redraft tx s = e :=
  rework_self (draft?_eq_some_iff.1 h)

theorem rescope_self (e : Engine) (tx : Nat) : e.rescope tx (e.transaction tx).scope = e :=
  setTransaction_self e tx

theorem transaction_rescope (h : (e.transaction tx).isActive = true) (scope : List String) :
    (e.rescope tx scope).transaction tx = { e.transaction tx with scope := scope } :=
  transaction_setTransaction_self (lt_of_isActive h)

theorem draft?_rescope (h : e.draft? tx = some s) (scope : List String) :
    (e.rescope tx scope).draft? tx = some s := by
  have hwriting := draft?_eq_some_iff.1 h
  have htransaction := transaction_rescope hwriting.active scope
  refine draft?_eq_some_iff.2 ⟨?_, ?_, ?_⟩
  · rw [htransaction]
    exact hwriting.active
  · rw [htransaction]
    exact hwriting.isOpen
  · rw [htransaction]
    exact hwriting.work

/-- It makes no difference to a commit what was in the draft before. -/
theorem committed_redraft (h : e.draft? tx = some s) (s₁ s₂ : Store) :
    (e.redraft tx s₁).committed tx s₂ = e.committed tx s₂ := by
  have hpath : ((e.redraft tx s₁).connection ((e.redraft tx s₁).transaction tx).connection).path =
      (e.connection (e.transaction tx).connection).path :=
    (congrArg Connection.path (connection_rework_self (draft?_eq_some_iff.1 h) (.writing s₁)) :)
  have hended (d : Engine) (hd : d.draft? tx = some s) : (d.redraft tx s₁).ended tx = d.ended tx := by
    have hrework := rework_rework (draft?_eq_some_iff.1 hd) (.writing s₁) .idle
    exact congrArg (fun g : Engine => g.setTransaction tx { d.transaction tx with isActive := false })
      hrework
  have hkeep : (e.keep (e.connection (e.transaction tx).connection).path s₂).draft? tx = some s := h
  rw [committed, hpath]
  exact hended _ hkeep

end Engine

/-! ### With a draft -/

namespace Action

variable {e : Engine} {tx : Nat} {w : Work} {s : Store}

theorem ensureActive_of_hasUnderWay (h : e.HasUnderWay tx w) :
    ensureActive tx e = .ok (e.transaction tx) e := by
  rw [ensureActive_run, if_pos h.active]

theorem statement_of_hasUnderWay (h : e.HasUnderWay tx w) :
    statement (e.transaction tx) e = .ok (e.connection (e.transaction tx).connection) e := by
  rw [statement_run, if_neg (by simp [h.isOpen])]

/-- The connection of a transaction is there also when the transaction is no more active. -/
theorem statement_run_ended (h : e.HasUnderWay tx w) : statement (e.transaction tx)
    (e.setTransaction tx { e.transaction tx with isActive := false }) =
      .ok (e.connection (e.transaction tx).connection)
        (e.setTransaction tx { e.transaction tx with isActive := false }) := by
  rw [statement_run]
  exact if_neg (Bool.eq_false_iff.1 h.isOpen)

/-- A commit keeps the draft, if there is one, and ends the transaction. -/
theorem commit_run (h : e.HasUnderWay tx w) : commit tx e = .ok ()
    ((e.keepWork (e.connection (e.transaction tx).connection).path w).ended tx) := by
  unfold commit
  rw [bind_of_ok (ensureActive_of_hasUnderWay h), modify_bind, bind_of_ok (statement_run_ended h)]
  simp only [h.work]
  cases w with
  | idle => rfl
  | reading snapshot => rfl
  | writing s => rfl

theorem commit_of_draft (h : e.draft? tx = some s) : commit tx e = .ok () (e.committed tx s) :=
  commit_run (Engine.draft?_eq_some_iff.1 h)

theorem read_of_draft (h : e.draft? tx = some s) : read tx e = .ok s e := by
  have hwriting := Engine.draft?_eq_some_iff.1 h
  unfold read
  rw [bind_of_ok (ensureActive_of_hasUnderWay hwriting),
    bind_of_ok (statement_of_hasUnderWay hwriting), hwriting.work]
  rfl

theorem write_of_draft (h : e.draft? tx = some s) (change : Store → Store) :
    write tx change e = .ok () (e.redraft tx (change s)) := by
  have hwriting := Engine.draft?_eq_some_iff.1 h
  unfold write
  rw [bind_of_ok (ensureActive_of_hasUnderWay hwriting),
    bind_of_ok (statement_of_hasUnderWay hwriting)]
  simp only [hwriting.work]
  rfl

theorem ensureWritable_of_draft (h : e.draft? tx = some s)
    (hmode : (e.transaction tx).mode ≠ .readonly) :
    ensureWritable tx e = .ok (e.transaction tx) e := by
  unfold ensureWritable
  rw [bind_of_ok (ensureActive_of_hasUnderWay (Engine.draft?_eq_some_iff.1 h)), if_neg hmode]
  rfl

end Action

namespace StoreRef

variable {α : Type} {e : Engine} {r : StoreRef} {s : Store}

theorem collection_of_draft (h : e.draft? r.transaction = some s) :
    r.collection e = .ok (s.contents.get r.name) e := by
  unfold collection
  rw [bind_of_ok (Action.read_of_draft h)]
  rfl

/-- A change of a collection becomes part of the draft, also when it fails. -/
theorem change_of_draft (h : e.draft? r.transaction = some s)
    (f : Collection → Except Failure α × Collection) :
    r.change f e = ending (f (s.contents.get r.name)).1 (e.redraft r.transaction
      { s with contents := s.contents.set r.name (f (s.contents.get r.name)).2 }) := by
  unfold change
  rw [bind_of_ok (collection_of_draft h)]
  simp only
  rw [bind_of_ok (Action.write_of_draft h _), ofExcept_run]

end StoreRef

/-! ### Without a draft -/

namespace Engine

variable {tx : Nat}

/-- A transaction without a draft has none either in a state where it is not newly active and its
connection is not newly writing. -/
theorem draft?_eq_none {e d : Engine} (h : e.draft? tx = none)
    (ht : (d.transaction tx).isActive = true → (e.transaction tx).isActive = true ∧
      (d.transaction tx).connection = (e.transaction tx).connection)
    (hc : ∀ s, (d.connection (e.transaction tx).connection).isClosed = false →
      (d.connection (e.transaction tx).connection).work = .writing s →
      (e.connection (e.transaction tx).connection).isClosed = false ∧
        ∃ s', (e.connection (e.transaction tx).connection).work = .writing s') : d.draft? tx = none := by
  cases hd : d.draft? tx with
  | none => rfl
  | some s =>
      obtain ⟨hactive, hopen, hwork⟩ := draft?_eq_some_iff.1 hd
      obtain ⟨hwas, hconnection⟩ := ht hactive
      rw [hconnection] at hopen hwork
      obtain ⟨hopen, s', hwork⟩ := hc s hopen hwork
      rw [draft?_eq_some_iff.2 ⟨hwas, hopen, hwork⟩] at h
      cases h

theorem draft?_setConnection {e : Engine} {id : Nat} {c : Connection} (h : e.draft? tx = none)
    (hc : ∀ s, c.isClosed = false → c.work = .writing s → (e.connection id).isClosed = false ∧
      ∃ s', (e.connection id).work = .writing s') : (e.setConnection id c).draft? tx = none := by
  refine draft?_eq_none h (fun ha => ⟨ha, rfl⟩) fun s hopen hwork => ?_
  rcases connection_setConnection e id c (e.transaction tx).connection with heq | ⟨rfl, heq⟩
  · rw [heq] at hopen hwork
    exact ⟨hopen, s, hwork⟩
  · rw [heq] at hopen hwork
    exact hc s hopen hwork

theorem draft?_setTransaction {e : Engine} {other : Nat} {t : Transaction} (h : e.draft? tx = none)
    (hc : t.connection = (e.transaction other).connection)
    (ha : t.isActive = true → (e.transaction other).isActive = true) :
    (e.setTransaction other t).draft? tx = none := by
  refine draft?_eq_none h (fun hactive => ?_) fun s hopen hwork => ⟨hopen, s, hwork⟩
  rcases transaction_setTransaction e other t tx with heq | ⟨rfl, heq⟩
  · rw [heq] at hactive ⊢
    exact ⟨hactive, rfl⟩
  · rw [heq] at hactive ⊢
    exact ⟨ha hactive, hc⟩

theorem isStable_draft?_eq_none (tx : Nat) : IsStable fun e => e.draft? tx = none where
  congr h _ hc ht := by
    refine draft?_eq_none h (fun ha => ?_) fun s hopen hwork => ?_
    · rw [transaction_congr ht] at ha ⊢
      exact ⟨ha, rfl⟩
    · rw [connection_congr hc] at hopen hwork
      exact ⟨hopen, s, hwork⟩
  connect h := by
    refine draft?_eq_none h (fun ha => ⟨ha, rfl⟩) fun s hopen hwork => ?_
    simp only [connection, List.getElem?_append] at hopen hwork ⊢
    split at hwork
    · next hlt =>
      rw [if_pos hlt] at hopen
      exact ⟨hopen, s, hwork⟩
    · rw [List.getElem?_singleton] at hwork
      split at hwork
      · cases hwork
      · cases hwork
  setConnection h _ _ hclosed hwork :=
    draft?_setConnection h fun s ho hw => ⟨hclosed ▸ ho, s, hwork ▸ hw⟩
  observed h _ := draft?_setConnection h fun _ _ hw => nomatch hw
  close h := draft?_setConnection h fun _ _ hw => nomatch hw
  make {e id scope mode} h := by
    refine draft?_eq_none h (fun ha => ?_) fun s hopen hwork => ⟨hopen, s, hwork⟩
    rcases transaction_append e ⟨id, scope, mode, false, false⟩ tx with heq | heq
    · rw [heq] at ha ⊢
      exact ⟨ha, rfl⟩
    · rw [heq] at ha
      cases ha
  setTransaction h hc _ ha _ := draft?_setTransaction h hc ha
  ended h _ := draft?_setConnection (draft?_setTransaction h rfl nofun) fun _ _ hw => nomatch hw

end Engine

/-- Without a draft a commit keeps nothing. -/
theorem Action.keeps_commit_of_no_draft {P : Engine → Prop} (hP : Engine.IsStable P) (tx : Nat) :
    (commit tx).Meets (fun e => P e ∧ e.draft? tx = none) (fun _ => P) P := by
  refine meets_commit hP hP (fun _ he => he.1) (fun e s he hactive hopen hw => ?_) fun _ he _ => he.1
  rw [Engine.draft?_eq_some_iff.2 ⟨hactive, hopen, hw⟩] at he
  cases he.2

/-- A write through a transaction without a draft does nothing. -/
theorem Action.leads_write_of_no_draft {e : Engine} {tx : Nat} (h : e.draft? tx = none)
    (change : Store → Store) : (write tx change).Leads e e := by
  refine meets_ensureActive_bind rfl fun t ht hactive => ?_
  refine meets_statement_bind rfl fun c hc hopen => ?_
  subst ht hc
  cases hwork : (e.connection (e.transaction tx).connection).work with
  | idle => exact meets_pure fun _ hd => hd
  | reading snapshot => exact meets_pure fun _ hd => hd
  | writing s =>
      rw [Engine.draft?_eq_some_iff.2 ⟨hactive, hopen, hwork⟩] at h
      cases h

end RecordStore
