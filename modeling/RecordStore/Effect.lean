import RecordStore.Failure.Basic

/-!
Effects: changes of a state that yield something or fail. What an effect did before its failure
stays done.
-/

namespace RecordStore

abbrev Effect (σ : Type) := EStateM Failure σ

namespace Effect

variable {σ τ α : Type}

/-- The result of a part that may fail. -/
def attempt (a : Effect σ α) : Effect σ (Except Failure α) :=
  tryCatch (do let x ← a; pure (.ok x)) fun f => pure (.error f)

/-- An effect on a part of a state. -/
def focus (part : σ → τ) (put : τ → σ → σ) (a : Effect τ α) : Effect σ α := fun s =>
  match a (part s) with
  | .ok x t => .ok x (put t s)
  | .error f t => .error f (put t s)

end Effect
end RecordStore
