import RecordStore.Key.Encoding

/-!
Successful results taken apart: a chain of parts that may fail succeeds exactly when each of its
parts does.
-/

namespace RecordStore

variable {ε α β : Type}

theorem bind_eq_ok_iff {r : Except ε α} {f : α → Except ε β} {b : β} :
    (r >>= f) = .ok b ↔ ∃ a, r = .ok a ∧ f a = .ok b := by
  cases r with
  | error e => exact ⟨nofun, nofun⟩
  | ok a => exact ⟨fun h => ⟨a, rfl, h⟩, fun ⟨_, ha, hf⟩ => by cases ha; exact hf⟩

theorem map_eq_ok_iff {r : Except ε α} {f : α → β} {b : β} :
    r.map f = .ok b ↔ ∃ a, r = .ok a ∧ f a = b := by
  cases r with
  | error e => exact ⟨nofun, nofun⟩
  | ok a =>
      constructor
      · intro h
        cases h
        exact ⟨a, rfl, rfl⟩
      · rintro ⟨_, ha, rfl⟩
        cases ha
        rfl

@[simp] theorem map_ok (f : α → β) (a : α) : (Except.ok a : Except ε α).map f = .ok (f a) := rfl

@[simp] theorem ok_bind (a : α) (f : α → Except ε β) : (Except.ok a >>= f) = f a := rfl

@[simp] theorem error_bind (e : ε) (f : α → Except ε β) :
    (Except.error e >>= f) = .error e := rfl

theorem eq_ok_of_toOption {r : Except ε α} {a : α} (h : r.toOption = some a) : r = .ok a := by
  cases r with
  | error e => cases h
  | ok b =>
      cases h
      rfl

namespace Key

theorem storeResult_eq_ok_iff {r : Except StoreFault α} {a : α} :
    storeResult r = .ok a ↔ r = .ok a := by
  cases r <;> simp [storeResult]

theorem formatResult_eq_ok_iff {r : Except FormatFault α} {a : α} :
    formatResult r = .ok a ↔ r = .ok a := by
  cases r <;> simp [formatResult]

/-- A value is a key when it passes the check and can be converted. -/
theorem ofValue_eq_ok_iff {v : Value} {k : Key} :
    ofValue v = .ok k ↔ check 0 v = .ok () ∧ convert v = .ok k := by
  rw [ofValue]
  cases check 0 v with
  | error f => simp
  | ok u => cases convert v <;> simp

end Key

theorem Value.encodeKey_eq_ok_iff {v : Value} {b : Bytes} :
    v.encodeKey = .ok b ↔ ∃ k, Key.ofValue v = .ok k ∧ k.encode = b :=
  map_eq_ok_iff

end RecordStore
