import RecordStore.Proofs.Engine.Calls

/-!
Orderly states of the engine: what an open connection has under way suits the one active transaction
that it can have. So whoever writes through an active transaction that is not for reading only writes
to a draft.
-/

namespace RecordStore

/-- What a connection has under way when a transaction with a mode is active on it. -/
def Work.Suits : Work → Mode → Prop
  | .idle, _ => False
  | .reading _, m => m = .readonly
  | .writing _, m => m ≠ .readonly

namespace Engine

structure IsOrderly (e : Engine) : Prop where
  made : ∀ tx, (e.transaction tx).isActive = true →
    (e.transaction tx).connection < e.connections.length
  suits : ∀ tx, (e.transaction tx).isActive = true →
    (e.connection (e.transaction tx).connection).isClosed = false →
      (e.connection (e.transaction tx).connection).work.Suits (e.transaction tx).mode
  alone : ∀ tx other, (e.transaction tx).isActive = true → (e.transaction other).isActive = true →
    (e.transaction tx).connection = (e.transaction other).connection →
      (e.connection (e.transaction tx).connection).isClosed = false → tx = other

variable {e d : Engine}

theorem isOrderly_initial : initial.IsOrderly := ⟨nofun, nofun, nofun⟩

/-- Transactions are still as they were if they are active, and so is what their connections have
under way. -/
theorem IsOrderly.of (h : e.IsOrderly) (hlength : e.connections.length ≤ d.connections.length)
    (ht : ∀ tx, (d.transaction tx).isActive = true → (e.transaction tx).isActive = true ∧
      (d.transaction tx).connection = (e.transaction tx).connection ∧
      (d.transaction tx).mode = (e.transaction tx).mode)
    (hc : ∀ tx, (d.transaction tx).isActive = true →
      (d.connection (e.transaction tx).connection).isClosed = false →
      (e.connection (e.transaction tx).connection).isClosed = false ∧
        ∀ m, (e.connection (e.transaction tx).connection).work.Suits m →
          (d.connection (e.transaction tx).connection).work.Suits m) : d.IsOrderly where
  made tx ha := by
    obtain ⟨hactive, hconnection, _⟩ := ht tx ha
    rw [hconnection]
    exact (h.made tx hactive).trans_le hlength
  suits tx ha hopen := by
    obtain ⟨hactive, hconnection, hmode⟩ := ht tx ha
    rw [hconnection] at hopen ⊢
    obtain ⟨hwas, hsuits⟩ := hc tx ha hopen
    rw [hmode]
    exact hsuits _ (h.suits tx hactive hwas)
  alone tx other ha ho hsame hopen := by
    obtain ⟨hactive, hconnection, _⟩ := ht tx ha
    obtain ⟨hother, hconnection', _⟩ := ht other ho
    rw [hconnection] at hopen
    rw [hconnection, hconnection'] at hsame
    exact h.alone tx other hactive hother hsame (hc tx ha hopen).1

/-- A connection whose work goes on in the same way. -/
theorem isOrderly_setConnection {id : Nat} {c : Connection} (h : e.IsOrderly)
    (hclosed : c.isClosed = false → (e.connection id).isClosed = false ∧
      ∀ m, (e.connection id).work.Suits m → c.work.Suits m) : (e.setConnection id c).IsOrderly := by
  refine h.of (by rw [setConnection, List.length_set]) (fun _ ha => ⟨ha, rfl, rfl⟩)
    fun tx _ hopen => ?_
  rcases connection_setConnection e id c (e.transaction tx).connection with heq | ⟨hid, heq⟩
  · rw [heq] at hopen ⊢
    exact ⟨hopen, fun _ hs => hs⟩
  · rw [heq] at hopen ⊢
    rw [hid]
    exact hclosed hopen

/-- A draft may be replaced. -/
theorem isOrderly_setDraft {id : Nat} {s : Store} (h : e.IsOrderly)
    (hwork : (e.connection id).work = .writing s) (s' : Store) :
    (e.setConnection id { e.connection id with work := .writing s' }).IsOrderly :=
  isOrderly_setConnection h fun hopen => ⟨hopen, fun _ hs => by rw [hwork] at hs; exact hs⟩

/-- A transaction that goes on, or is not active any more. -/
theorem isOrderly_setTransaction {tx : Nat} {t : Transaction} (h : e.IsOrderly)
    (hconnection : t.connection = (e.transaction tx).connection)
    (hmode : t.mode = (e.transaction tx).mode)
    (hactive : t.isActive = true → (e.transaction tx).isActive = true) :
    (e.setTransaction tx t).IsOrderly := by
  refine h.of le_rfl (fun other ha => ?_) fun other _ hopen => ⟨hopen, fun _ hs => hs⟩
  rcases transaction_setTransaction e tx t other with heq | ⟨rfl, heq⟩
  · rw [heq] at ha ⊢
    exact ⟨ha, rfl, rfl⟩
  · rw [heq] at ha ⊢
    exact ⟨hactive ha, hconnection, hmode⟩

theorem isOrderly_ended {tx : Nat} (h : e.IsOrderly) (hactive : (e.transaction tx).isActive = true) :
    (e.ended tx).IsOrderly := by
  have hother (other : Nat) (ha : ((e.ended tx).transaction other).isActive = true) :
      other ≠ tx ∧ (e.ended tx).transaction other = e.transaction other := by
    have hne : other ≠ tx := by
      rintro rfl
      have hself : (e.ended other).transaction other =
          { e.transaction other with isActive := false } := transaction_setTransaction_self (lt_of_isActive hactive)
      rw [hself] at ha
      cases ha
    exact ⟨hne, transaction_setTransaction_of_ne hne⟩
  refine h.of (by rw [ended, setConnection, List.length_set]; rfl) (fun other ha => ?_)
    fun other ha hopen => ?_
  · obtain ⟨_, heq⟩ := hother other ha
    rw [heq] at ha ⊢
    exact ⟨ha, rfl, rfl⟩
  · obtain ⟨hne, heq⟩ := hother other ha
    rw [heq] at ha
    by_cases hsame : (e.transaction other).connection = (e.transaction tx).connection
    · have hclosed : ((e.ended tx).connection (e.transaction other).connection).isClosed =
          (e.connection (e.transaction other).connection).isClosed := by
        unfold ended
        exact connection_setConnection_congr Connection.isClosed (by rfl) _
      exact absurd (h.alone other tx ha hactive hsame (hclosed ▸ hopen)) hne
    · have hconnection : (e.ended tx).connection (e.transaction other).connection =
          e.connection (e.transaction other).connection := connection_setConnection_of_ne hsame
      rw [hconnection] at hopen ⊢
      exact ⟨hopen, fun _ hs => hs⟩

theorem isStable_isOrderly : IsStable IsOrderly where
  congr {e d} h _ hc ht := by
    refine h.of (by rw [hc]) (fun tx ha => ?_) fun tx _ hopen => ?_
    · rw [transaction_congr ht] at ha ⊢
      exact ⟨ha, rfl, rfl⟩
    · rw [connection_congr hc] at hopen ⊢
      exact ⟨hopen, fun _ hs => hs⟩
  connect {e path version} h := by
    refine h.of ?_ (fun _ ha => ⟨ha, rfl, rfl⟩) fun tx ha hopen => ?_
    · rw [List.length_append]
      exact Nat.le_add_right _ _
    · rw [connection_append_of_lt (h.made tx ha)] at hopen ⊢
      exact ⟨hopen, fun _ hs => hs⟩
  setConnection h _ _ hclosed hwork :=
    isOrderly_setConnection h fun hopen => ⟨hclosed ▸ hopen, fun _ hs => hwork ▸ hs⟩
  observed h hw :=
    isOrderly_setConnection h fun hopen => ⟨hopen, fun _ hs => by rw [hw] at hs; exact hs⟩
  close h := isOrderly_setConnection h nofun
  make {e id scope mode} h := by
    refine h.of le_rfl (fun tx ha => ?_) fun tx _ hopen => ⟨hopen, fun _ hs => hs⟩
    rcases transaction_append e ⟨id, scope, mode, false, false⟩ tx with heq | heq
    · rw [heq] at ha ⊢
      exact ⟨ha, rfl, rfl⟩
    · rw [heq] at ha
      cases ha
  setTransaction h hc hm ha _ := isOrderly_setTransaction h hc hm ha
  ended h ha := isOrderly_ended h ha

/-- No transaction is active on an open connection that has nothing under way. -/
theorem IsOrderly.connection_ne {tx id : Nat} (h : e.IsOrderly) (ha : (e.transaction tx).isActive = true)
    (hopen : (e.connection id).isClosed = false) (hidle : (e.connection id).work = .idle) :
    (e.transaction tx).connection ≠ id := by
  rintro rfl
  have hsuits := h.suits tx ha hopen
  rw [hidle] at hsuits
  exact hsuits

/-- A transaction begins on an open connection with nothing under way, where none is active. -/
theorem isOrderly_begun {tx : Nat} (h : e.IsOrderly)
    (hopen : (e.connection (e.transaction tx).connection).isClosed = false)
    (hidle : (e.connection (e.transaction tx).connection).work = .idle) :
    (e.begun tx).IsOrderly := by
  have hnone (other : Nat) (ha : (e.transaction other).isActive = true) :
      (e.transaction other).connection ≠ (e.transaction tx).connection := h.connection_ne ha hopen hidle
  have htransaction (other : Nat) (ha : ((e.begun tx).transaction other).isActive = true) :
      (e.begun tx).transaction other = e.transaction other ∧ (e.transaction other).isActive = true ∨
        other = tx ∧ (e.begun tx).transaction other =
          { e.transaction tx with isStarted := true, isActive := true } := by
    rcases transaction_setTransaction _ tx _ other with heq | ⟨rfl, heq⟩
    · exact .inl ⟨heq, heq ▸ ha⟩
    · exact .inr ⟨rfl, heq⟩
  constructor
  case made =>
    intro other ha
    rw [show (e.begun tx).connections.length = e.connections.length from List.length_set]
    rcases htransaction other ha with ⟨heq, hactive⟩ | ⟨rfl, heq⟩
    · rw [heq]
      exact h.made other hactive
    · rw [heq]
      exact lt_of_isClosed_eq_false hopen
  case suits =>
    intro other ha hother
    rcases htransaction other ha with ⟨heq, hactive⟩ | ⟨rfl, heq⟩
    · rw [heq, connection_begun_of_ne (hnone other hactive)] at hother ⊢
      exact h.suits other hactive hother
    · rw [heq, work_begun hopen]
      by_cases hmode : (e.transaction other).mode = .readonly
      · rw [if_pos hmode]
        exact hmode
      · rw [if_neg hmode]
        exact hmode
  case alone =>
    intro one other hone hother hsame hclosed
    rcases htransaction one hone with ⟨heq, hactive⟩ | ⟨rfl, heq⟩
    · have hne := hnone one hactive
      rcases htransaction other hother with ⟨heq', hactive'⟩ | ⟨rfl, heq'⟩
      · rw [heq, connection_begun_of_ne hne] at hclosed
        rw [heq, heq'] at hsame
        exact h.alone one other hactive hactive' hsame hclosed
      · rw [heq, heq'] at hsame
        exact absurd hsame hne
    · rcases htransaction other hother with ⟨heq', hactive'⟩ | ⟨rfl, heq'⟩
      · rw [heq, heq'] at hsame
        exact absurd hsame.symm (hnone other hactive')
      · rfl

end Engine

open Effect

/-- Every call keeps the state orderly. -/
theorem EngineCall.isOrderly_run (c : EngineCall) : c.run.Keeps Engine.IsOrderly := by
  refine keeps_run Engine.isStable_isOrderly (fun tx change => ?_)
    (fun _ _ he hready => Engine.isOrderly_begun he hready.isOpen hready.idle)
    (fun _ _ _ he => ⟨he.made, he.suits, he.alone⟩) (fun _ _ he => ⟨he.made, he.suits, he.alone⟩) c
  exact Action.meets_write (fun _ he => he) (fun _ _ he _ hw => Engine.isOrderly_setDraft he hw _)
    fun _ he _ => he

theorem Engine.isOrderly_of_isReachable {e : Engine} (h : e.IsReachable) : e.IsOrderly := by
  induction h with
  | initial => exact isOrderly_initial
  | next c _ ih => exact Effect.Meets.after c.isOrderly_run ih

end RecordStore
