import RecordStore.Proofs.Engine.State

/-!
Rules for transactions. What can only look at the state, or tell listeners, keeps every stable
property; the beginning of a transaction, a write and a commit meet what the states after them have.
-/

namespace RecordStore
namespace Action

open Effect

variable {α β : Type} {P Q E : Engine → Prop}

/-! ### Looking at the state -/

theorem keeps_connection (id : Nat) : (connection id).Keeps P := keeps_gets _

theorem keeps_transaction (tx : Nat) : (transaction tx).Keeps P := keeps_gets _

theorem ensureActive_run (tx : Nat) (e : Engine) :
    ensureActive tx e = if (e.transaction tx).isActive = true then .ok (e.transaction tx) e
      else .error (.store .transactionInactive) e := by
  change (if (e.transaction tx).isActive = true then pure (e.transaction tx)
    else refuse .transactionInactive : Action Transaction) e = _
  split
  · rfl
  · rfl

theorem statement_run (t : Transaction) (e : Engine) :
    statement t e = if (e.connection t.connection).isClosed = true then
      .error (.argument .connectionGone) e else .ok (e.connection t.connection) e := by
  change (if (e.connection t.connection).isClosed = true then reject .connectionGone
    else pure (e.connection t.connection) : Action Connection) e = _
  split
  · rfl
  · rfl

/-- What follows a look at a transaction. -/
theorem meets_transaction_bind {tx : Nat} {e : Engine} {f : Transaction → Action α}
    {R : α → Engine → Prop} (hf : ∀ t, t = e.transaction tx → (f t).Meets (· = e) R E) :
    (transaction tx >>= f).Meets (· = e) R E :=
  meets_bind_of_ok rfl (hf _ rfl)

/-- What follows a check that a transaction is active. -/
theorem meets_ensureActive_bind {tx : Nat} {e : Engine} {f : Transaction → Action α}
    {R : α → Engine → Prop} (he : E e)
    (hf : ∀ t, t = e.transaction tx → t.isActive = true → (f t).Meets (· = e) R E) :
    (ensureActive tx >>= f).Meets (· = e) R E := by
  by_cases h : (e.transaction tx).isActive = true
  · exact meets_bind_of_ok (by rw [ensureActive_run, if_pos h]) (hf _ rfl h)
  · exact meets_bind_of_error (by rw [ensureActive_run, if_neg h]) he

/-- What follows the making of a statement. -/
theorem meets_statement_bind {t : Transaction} {e : Engine} {f : Connection → Action α}
    {R : α → Engine → Prop} (he : E e)
    (hf : ∀ c, c = e.connection t.connection → c.isClosed = false → (f c).Meets (· = e) R E) :
    (statement t >>= f).Meets (· = e) R E := by
  by_cases h : (e.connection t.connection).isClosed = true
  · exact meets_bind_of_error (by rw [statement_run, if_pos h]) he
  · exact meets_bind_of_ok (by rw [statement_run, if_neg h]) (hf _ rfl (Bool.not_eq_true _ ▸ h))

theorem meets_ensureActive_of_inactive {tx : Nat} {e : Engine}
    (h : (e.transaction tx).isActive = false) :
    (ensureActive tx).Meets (· = e) (fun _ _ => False) (· = e) := by
  rintro d rfl
  rw [ensureActive_run, if_neg (by rw [h]; exact Bool.false_ne_true)]

theorem keeps_ensureActive (tx : Nat) : (ensureActive tx).Keeps P := by
  intro e he
  rw [ensureActive_run]
  by_cases h : (e.transaction tx).isActive = true
  · rw [if_pos h]
    exact he
  · rw [if_neg h]
    exact he

theorem keeps_ensureWritable (tx : Nat) : (ensureWritable tx).Keeps P := by
  refine keeps_bind (keeps_ensureActive tx) fun t => ?_
  split
  · exact keeps_throw _
  · exact keeps_pure _

/-! ### Telling listeners -/

theorem keeps_tellAll (hP : Engine.IsStable P) (event : Event) (listeners : List Listener) :
    (tellAll event listeners).Keeps P := by
  induction listeners with
  | nil => exact keeps_pure _
  | cons l rest ih =>
      refine keeps_bind (keeps_bind (keeps_modify fun e he => hP.congr he rfl rfl rfl) fun _ => ?_)
        fun _ => ih
      split
      · exact keeps_throw _
      · exact keeps_pure _

theorem keeps_dispatch (hP : Engine.IsStable P) (id : Nat) (event : Event) :
    (dispatch id event).Keeps P :=
  keeps_bind (keeps_connection id) fun _ => keeps_tellAll hP event _

/-! ### Beginning and ending -/

/-- A transaction that is made belongs to the connection that it is made for. -/
theorem meets_make (hP : Engine.IsStable P) (id : Nat) (scope : List String) (mode : Mode) :
    (make id scope mode).Meets P (fun tx e => P e ∧ (e.transaction tx).connection = id) P := by
  refine meets_of_each fun e he => ?_
  refine meets_bind_of_ok rfl (meets_bind_of_ok rfl (meets_pure ?_))
  rintro _ rfl
  refine ⟨hP.make he, ?_⟩
  rw [Engine.transaction, List.getElem?_concat_length]
  rfl

/-- A transaction begins if it can, and only then. -/
theorem meets_begin {tx : Nat} (hE : Engine.IsStable E) (hPE : ∀ e, P e → E e)
    (hok : ∀ e, P e → e.IsReady tx → Q (e.begun tx)) : (begin tx).Meets P (fun _ => Q) E := by
  refine meets_of_each fun e he => ?_
  unfold begin
  refine meets_transaction_bind fun t ht => ?_
  have hstarted : E (e.setTransaction tx { t with isStarted := true }) := by
    rw [ht]
    exact hE.setTransaction (hPE e he) rfl rfl id fun _ => rfl
  refine meets_guard (meets_throw _ fun _ hd => hd ▸ hPE e he) fun hnew => ?_
  refine meets_bind_of_ok (t := e.setTransaction tx { t with isStarted := true }) rfl ?_
  refine meets_statement_bind hstarted fun c hc hopen => ?_
  change c = e.connection t.connection at hc
  cases hw : c.work with
  | reading snapshot => exact meets_fail (meets_throw _ fun _ hd => hd ▸ hstarted)
  | writing draft => exact meets_fail (meets_throw _ fun _ hd => hd ▸ hstarted)
  | idle =>
      have hready (halone : t.mode = .readonly ∨ hasOtherWriter e t.connection c.path = false) :
          e.IsReady tx := by
        subst ht hc
        exact ⟨Bool.eq_false_iff.2 hnew, hopen, hw, halone⟩
      have hbegun (halone : t.mode = .readonly ∨ hasOtherWriter e t.connection c.path = false) :=
        hok e he (hready halone)
      rw [Engine.begun, ← ht] at hbegun
      rw [← hc] at hbegun
      refine meets_bind_of_ok (x := e.setTransaction tx { t with isStarted := true }) rfl ?_
      by_cases hmode : t.mode = .readonly
      · rw [if_pos hmode] at hbegun ⊢
        refine meets_bind_of_ok rfl (meets_modify ?_)
        rintro _ rfl
        rw [Engine.setTransaction_again]
        exact hbegun (.inl hmode)
      · rw [if_neg hmode] at hbegun ⊢
        refine meets_guard (meets_throw _ fun _ hd => hd ▸ hstarted) fun halone => ?_
        refine meets_bind_of_ok rfl (meets_modify ?_)
        rintro _ rfl
        rw [Engine.setTransaction_again]
        exact hbegun (.inr (Bool.eq_false_iff.2 halone))

/-- A transaction that commits keeps its draft, if it has one. -/
theorem meets_commit {tx : Nat} (hQ : Engine.IsStable Q) (hE : Engine.IsStable E)
    (hPE : ∀ e, P e → E e)
    (hkeep : ∀ e draft, P e → (e.transaction tx).isActive = true →
      (e.connection (e.transaction tx).connection).isClosed = false →
      (e.connection (e.transaction tx).connection).work = .writing draft →
        Q (e.keep (e.connection (e.transaction tx).connection).path draft))
    (hnone : ∀ e, P e →
      (∀ draft, (e.connection (e.transaction tx).connection).work ≠ .writing draft) → Q e) :
    (commit tx).Meets P (fun _ => Q) E := by
  refine meets_of_each fun e he => ?_
  refine meets_ensureActive_bind (hPE e he) fun t ht hactive => ?_
  subst ht
  refine meets_bind_of_ok rfl ?_
  refine meets_statement_bind (hE.setTransaction (hPE e he) rfl rfl nofun id) fun c hc hopen => ?_
  change c = e.connection (e.transaction tx).connection at hc
  subst hc
  cases hw : (e.connection (e.transaction tx).connection).work with
  | writing draft =>
      refine meets_bind_of_ok rfl (meets_modify ?_)
      rintro _ rfl
      exact hQ.ended (hkeep e draft he hactive hopen hw) hactive
  | idle =>
      refine meets_bind_of_ok rfl (meets_modify ?_)
      rintro _ rfl
      exact hQ.ended (hnone e he fun _ hd => nomatch hw.symm.trans hd) hactive
  | reading snapshot =>
      refine meets_bind_of_ok rfl (meets_modify ?_)
      rintro _ rfl
      exact hQ.ended (hnone e he fun _ hd => nomatch hw.symm.trans hd) hactive

/-- A transaction that is not active is not committed. -/
theorem meets_commit_of_inactive {tx : Nat} {e : Engine}
    (h : (e.transaction tx).isActive = false) :
    (commit tx).Meets (· = e) (fun _ _ => False) (· = e) :=
  meets_fail (meets_ensureActive_of_inactive h)

theorem keeps_abort (hP : Engine.IsStable P) (tx : Nat) (error : Option String) :
    (abort tx error).Keeps P := by
  refine meets_of_each fun e he => ?_
  refine meets_transaction_bind fun t ht => ?_
  refine meets_ite (fun hactive => ?_) fun _ => meets_pure fun _ hd => hd ▸ he
  subst ht
  refine meets_bind_of_ok rfl ?_
  refine meets_statement_bind (hP.setTransaction he rfl rfl nofun id) fun c hc _ => ?_
  subst hc
  refine meets_bind (Q := fun _ => P) (meets_modify ?_) fun _ => ?_
  · rintro _ rfl
    exact hP.ended he hactive
  · exact meets_ite
      (fun _ => keeps_bind (keeps_dispatch hP _ _) fun _ => keeps_dispatch hP _ _)
      fun _ => keeps_dispatch hP _ _

theorem keeps_openTransaction (hP : Engine.IsStable P) (id : Nat) (collections mode : Value) :
    (openTransaction id collections mode).Keeps P := by
  unfold openTransaction
  refine keeps_bind (keeps_connection id) fun c => ?_
  refine meets_guard (keeps_throw _) fun _ => ?_
  have hrest (mode : Mode) : Keeps P (do
      let names ← ofExcept (Key.formatResult (listed collections))
      if names.isEmpty then reject .noCollections
      let scope ← ofExcept (Key.storeResult (known c.collectionNames names))
      make id scope mode) := by
    refine keeps_bind (keeps_ofExcept _) fun names => ?_
    refine meets_guard (keeps_throw _) fun _ => ?_
    exact keeps_bind (keeps_ofExcept _) fun scope =>
      (meets_make hP id scope mode).imp (fun _ he => he) (fun _ _ he => he.1) fun _ he => he
  split
  · exact hrest .readonly
  · exact hrest .readwrite
  · exact meets_fail (keeps_throw _)

/-! ### Reading and writing -/

/-- What a transaction reads is its draft, what its connection has seen, or a store that is kept. -/
theorem ensures_read {tx : Nat} {T : Store → Prop}
    (hobserved : ∀ e id, P e → (e.connection id).work = .reading none → P (e.observed id))
    (hdraft : ∀ e s, P e →
      (e.connection (e.transaction tx).connection).work = .writing s → T s)
    (hsnapshot : ∀ e s, P e →
      (e.connection (e.transaction tx).connection).work = .reading (some s) → T s)
    (hkept : ∀ e path, P e → T (e.store path)) : (read tx).Ensures P T := by
  refine meets_of_each fun e he => ?_
  refine meets_ensureActive_bind he fun t ht _ => ?_
  refine meets_statement_bind he fun c hc _ => ?_
  subst ht hc
  cases hw : (e.connection (e.transaction tx).connection).work with
  | idle =>
      rintro _ rfl
      exact ⟨he, hkept _ _ he⟩
  | writing draft => exact fun _ hd => ⟨hd ▸ he, hdraft e draft he hw⟩
  | reading snapshot =>
      cases snapshot with
      | some s => exact fun _ hd => ⟨hd ▸ he, hsnapshot e s he hw⟩
      | none =>
          refine meets_bind_of_ok rfl (meets_bind_of_ok rfl ?_)
          exact meets_pure fun _ hd => ⟨hd ▸ hobserved e _ he hw, hkept e _ he⟩

theorem keeps_read {tx : Nat}
    (hobserved : ∀ e id, P e → (e.connection id).work = .reading none → P (e.observed id)) :
    (read tx).Keeps P :=
  (ensures_read (T := fun _ => True) hobserved (fun _ _ _ _ => trivial) (fun _ _ _ _ => trivial)
    fun _ _ _ => trivial).keeps

/-- A transaction with a draft reads the draft, and leaves everything as it is. -/
theorem meets_read_of_writing {tx : Nat} {e : Engine} {draft : Store}
    (hw : (e.connection (e.transaction tx).connection).work = .writing draft) :
    (read tx).Meets (· = e) (fun s d => d = e ∧ s = draft) (· = e) := by
  refine meets_ensureActive_bind rfl fun t ht _ => ?_
  refine meets_statement_bind rfl fun c hc _ => ?_
  subst ht hc
  rw [hw]
  exact fun _ hd => ⟨hd, rfl⟩

/-- A write changes the draft of a transaction, if it has one. -/
theorem meets_write {tx : Nat} {change : Store → Store} (hPE : ∀ e, P e → E e)
    (hdraft : ∀ e draft, P e →
      (e.connection (e.transaction tx).connection).isClosed = false →
      (e.connection (e.transaction tx).connection).work = .writing draft →
        Q (e.setConnection (e.transaction tx).connection
          { e.connection (e.transaction tx).connection with work := .writing (change draft) }))
    (hnone : ∀ e, P e →
      (∀ draft, (e.connection (e.transaction tx).connection).work ≠ .writing draft) → Q e) :
    (write tx change).Meets P (fun _ => Q) E := by
  refine meets_of_each fun e he => ?_
  refine meets_ensureActive_bind (hPE e he) fun t ht _ => ?_
  refine meets_statement_bind (hPE e he) fun c hc hopen => ?_
  subst ht hc
  cases hw : (e.connection (e.transaction tx).connection).work with
  | writing draft => exact fun _ hd => hd ▸ hdraft e draft he hopen hw
  | idle => exact fun _ hd => hd ▸ hnone e he fun _ h => nomatch hw.symm.trans h
  | reading snapshot => exact fun _ hd => hd ▸ hnone e he fun _ h => nomatch hw.symm.trans h

end Action
end RecordStore
