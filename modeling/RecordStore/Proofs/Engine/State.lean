import RecordStore.Engine.Access
import RecordStore.Proofs.Effect
import RecordStore.Proofs.OrderedRows

/-!
States of the engine after a change. Most changes leave the stores that are kept and the drafts as
they are; a property that all of these keep is stable.
-/

namespace RecordStore
namespace Engine

variable {e : Engine} {id : Nat} {c : Connection} {path : String} {s : Store}

/-! ### Lookups after a change -/

theorem store_congr {d : Engine} (h : d.stores = e.stores) (path : String) :
    d.store path = e.store path := by
  unfold store
  rw [h]

theorem connection_congr {d : Engine} (h : d.connections = e.connections) (id : Nat) :
    d.connection id = e.connection id := by
  unfold connection
  rw [h]

theorem transaction_congr {d : Engine} (h : d.transactions = e.transactions) (tx : Nat) :
    d.transaction tx = e.transaction tx := by
  unfold transaction
  rw [h]

theorem connection_setConnection (e : Engine) (id : Nat) (c : Connection) (other : Nat) :
    (e.setConnection id c).connection other = e.connection other ∨
      other = id ∧ (e.setConnection id c).connection other = c := by
  rw [connection, connection, setConnection, List.getElem?_set]
  split
  · next h =>
    split
    · exact .inr ⟨h.symm, rfl⟩
    · next hlt =>
      rw [← h, List.getElem?_eq_none (Nat.le_of_not_lt hlt)]
      exact .inl rfl
  · exact .inl rfl

theorem connection_setConnection_of_ne {other : Nat} (h : other ≠ id) :
    (e.setConnection id c).connection other = e.connection other :=
  (connection_setConnection e id c other).resolve_right fun hid => h hid.1

/-- A connection that is open was made. -/
theorem lt_of_isClosed_eq_false (h : (e.connection id).isClosed = false) :
    id < e.connections.length := by
  by_contra hle
  rw [connection, List.getElem?_eq_none (Nat.le_of_not_lt hle)] at h
  cases h

theorem connection_setConnection_self (h : (e.connection id).isClosed = false) :
    (e.setConnection id c).connection id = c := by
  rw [connection, setConnection, List.getElem?_set_self (lt_of_isClosed_eq_false h)]
  rfl

theorem setConnection_self (h : (e.connection id).isClosed = false) :
    e.setConnection id (e.connection id) = e := by
  have hlt := lt_of_isClosed_eq_false h
  rw [setConnection, connection, List.getElem?_eq_getElem hlt, Option.getD_some,
    List.set_getElem_self]

/-- What a connection that is replaced has in common with the new one, it keeps. -/
theorem connection_setConnection_congr {α : Type} (f : Connection → α)
    (h : f c = f (e.connection id)) (other : Nat) :
    f ((e.setConnection id c).connection other) = f (e.connection other) := by
  rcases connection_setConnection e id c other with heq | ⟨rfl, heq⟩
  · rw [heq]
  · rw [heq, h]

theorem transaction_setTransaction (e : Engine) (tx : Nat) (t : Transaction) (other : Nat) :
    (e.setTransaction tx t).transaction other = e.transaction other ∨
      other = tx ∧ (e.setTransaction tx t).transaction other = t := by
  rw [transaction, transaction, setTransaction, List.getElem?_set]
  split
  · next h =>
    split
    · exact .inr ⟨h.symm, rfl⟩
    · next hlt =>
      rw [← h, List.getElem?_eq_none (Nat.le_of_not_lt hlt)]
      exact .inl rfl
  · exact .inl rfl

theorem transaction_setTransaction_of_ne {tx other : Nat} {t : Transaction} (h : other ≠ tx) :
    (e.setTransaction tx t).transaction other = e.transaction other :=
  (transaction_setTransaction e tx t other).resolve_right fun htx => h htx.1

/-- A transaction that is active was made. -/
theorem lt_of_isActive {tx : Nat} (h : (e.transaction tx).isActive = true) :
    tx < e.transactions.length := by
  by_contra hle
  rw [transaction, List.getElem?_eq_none (Nat.le_of_not_lt hle)] at h
  cases h

theorem transaction_setTransaction_self {tx : Nat} {t : Transaction}
    (h : tx < e.transactions.length) : (e.setTransaction tx t).transaction tx = t := by
  rw [transaction, setTransaction, List.getElem?_set_self h]
  rfl

theorem setTransaction_self (e : Engine) (tx : Nat) : e.setTransaction tx (e.transaction tx) = e := by
  by_cases hlt : tx < e.transactions.length
  · rw [setTransaction, transaction, List.getElem?_eq_getElem hlt, Option.getD_some,
      List.set_getElem_self]
  · rw [setTransaction, List.set_eq_of_length_le (Nat.le_of_not_lt hlt)]

theorem connection_append_of_lt (h : id < e.connections.length) (c : Connection) :
    ({ e with connections := e.connections ++ [c] } : Engine).connection id = e.connection id := by
  rw [connection, connection, List.getElem?_append_left h]

theorem transaction_append (e : Engine) (t : Transaction) (tx : Nat) :
    ({ e with transactions := e.transactions ++ [t] } : Engine).transaction tx = e.transaction tx ∨
      ({ e with transactions := e.transactions ++ [t] } : Engine).transaction tx = t := by
  rw [transaction, transaction, List.getElem?_append]
  split
  · exact .inl rfl
  · next hle =>
    rw [List.getElem?_eq_none (Nat.le_of_not_lt hle), List.getElem?_singleton]
    split
    · exact .inr rfl
    · exact .inl rfl

theorem setTransaction_again (e : Engine) (tx : Nat) (t u : Transaction) :
    ((e.setTransaction tx t).setConnection id c).setTransaction tx u =
      (e.setConnection id c).setTransaction tx u := by
  rw [setConnection, setTransaction, setTransaction, setTransaction, setConnection, List.set_set]

theorem store_keep_self (e : Engine) (path : String) (s : Store) : (e.keep path s).store path = s := by
  rw [store, keep, List.lookup_cons, beq_self_eq_true]
  rfl

theorem store_keep_of_ne {other : String} (h : other ≠ path) :
    (e.keep path s).store other = e.store other := by
  rw [store, keep, List.lookup_cons, beq_false_of_ne h, OrderedRows.lookup_filter (· != path),
    if_pos (bne_iff_ne.2 h)]
  rfl

theorem store_forget (e : Engine) (path other : String) :
    (e.forget path).store other = if other = path then default else e.store other := by
  rw [store, forget, OrderedRows.lookup_filter (· != path)]
  by_cases h : other = path
  · rw [if_neg (by simp [h]), if_pos h]
    rfl
  · rw [if_pos (bne_iff_ne.2 h), if_neg h]
    rfl

/-! ### Stable properties -/

/-- After a transaction has begun. -/
def begun (e : Engine) (tx : Nat) : Engine :=
  let t := e.transaction tx
  let c := e.connection t.connection
  let work : Work := if t.mode = .readonly then .reading none else .writing (e.store c.path)
  (e.setConnection t.connection { c with work := work }).setTransaction tx
    { t with isStarted := true, isActive := true }

/-- After a transaction has ended. What it had under way is dropped. -/
def ended (e : Engine) (tx : Nat) : Engine :=
  let t := e.transaction tx
  (e.setTransaction tx { t with isActive := false }).setConnection t.connection
    { e.connection t.connection with work := .idle }

/-- After the first read of a reading transaction. -/
def observed (e : Engine) (id : Nat) : Engine :=
  let c := e.connection id
  e.setConnection id { c with work := .reading (some (e.store c.path)) }

/-- A transaction can begin: it is new, its connection is open and has nothing under way, and nobody else
writes to the path if it is to write. -/
structure IsReady (e : Engine) (tx : Nat) : Prop where
  isNew : (e.transaction tx).isStarted = false
  isOpen : (e.connection (e.transaction tx).connection).isClosed = false
  idle : (e.connection (e.transaction tx).connection).work = .idle
  alone : (e.transaction tx).mode = .readonly ∨ Action.hasOtherWriter e (e.transaction tx).connection
    (e.connection (e.transaction tx).connection).path = false

theorem work_begun {tx : Nat} (hopen : (e.connection (e.transaction tx).connection).isClosed = false) :
    ((e.begun tx).connection (e.transaction tx).connection).work =
      if (e.transaction tx).mode = .readonly then .reading none
      else .writing (e.store (e.connection (e.transaction tx).connection).path) :=
  congrArg Connection.work (connection_setConnection_self hopen)

theorem connection_begun_of_ne {tx : Nat} (h : id ≠ (e.transaction tx).connection) :
    (e.begun tx).connection id = e.connection id :=
  connection_setConnection_of_ne h

/-- A property that is kept by all changes but the beginning of a draft, a write to it, and the
keeping and forgetting of stores. -/
structure IsStable (P : Engine → Prop) : Prop where
  /-- Only the stores, the connections and the transactions count. -/
  congr {e d : Engine} : P e → d.stores = e.stores → d.connections = e.connections →
    d.transactions = e.transactions → P d
  connect {e : Engine} {path : String} {version : Nat} : P e →
    P { e with connections := e.connections ++ [⟨path, version, false, [], [], .idle⟩] }
  /-- The listeners of a connection and the collections that it knows do not count. -/
  setConnection {e : Engine} {id : Nat} {c : Connection} : P e →
    c.path = (e.connection id).path → c.version = (e.connection id).version →
    c.isClosed = (e.connection id).isClosed → c.work = (e.connection id).work →
    P (e.setConnection id c)
  observed {e : Engine} {id : Nat} : P e → (e.connection id).work = .reading none →
    P (e.observed id)
  close {e : Engine} {id : Nat} : P e →
    P (e.setConnection id { e.connection id with isClosed := true, work := .idle })
  make {e : Engine} {id : Nat} {scope : List String} {mode : Mode} : P e →
    P { e with transactions := e.transactions ++ [⟨id, scope, mode, false, false⟩] }
  /-- The scope of a transaction does not count, nor that it is now started. -/
  setTransaction {e : Engine} {tx : Nat} {t : Transaction} : P e →
    t.connection = (e.transaction tx).connection → t.mode = (e.transaction tx).mode →
    (t.isActive = true → (e.transaction tx).isActive = true) →
    ((e.transaction tx).isStarted = true → t.isStarted = true) → P (e.setTransaction tx t)
  ended {e : Engine} {tx : Nat} : P e → (e.transaction tx).isActive = true → P (e.ended tx)

end Engine
end RecordStore
