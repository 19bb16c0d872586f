import RecordStore.Effect

/-!
Taking turns. An operation first makes its checks, and then waits for its turn with what is left
to do. Operations that run at the same time all make their checks before the first of them has its
turn, and have their turns one after the other in the order in which they asked.
-/

namespace RecordStore

/-- An operation after its checks: it is over, or has a job to do when its turn comes. -/
inductive Turn (σ α : Type) where
  | finished (a : α)
  | waiting (job : Effect σ α)

structure Operation (σ α : Type) where
  enter : Effect σ (Turn σ α)

namespace Turn

/-- Does what there is still to do. -/
def finish {σ α : Type} : Turn σ α → Effect σ α
  | finished a => pure a
  | waiting job => job

end Turn

namespace Operation

variable {σ τ α β : Type}

/-- Runs an operation whose turn comes at once. -/
def run (o : Operation σ α) : Effect σ α := do
  let turn ← o.enter
  turn.finish

/-- An operation that is over with its checks. -/
def ofTask (t : Effect σ α) : Operation σ α := ⟨return .finished (← t)⟩

/-- An operation that is found by checks. -/
def after (t : Effect σ (Operation σ α)) : Operation σ α where
  enter := do
    let o ← t
    o.enter

/-- Goes on when an operation is over. -/
def andThen (o : Operation σ α) (f : α → Effect σ β) : Operation σ β where
  enter := do
    match ← o.enter with
    | .finished a => return .finished (← f a)
    | .waiting job => return .waiting (job >>= f)

/-- Carries an operation over, part by part, to another state. -/
def lift (f : {γ : Type} → Effect σ γ → Effect τ γ) (o : Operation σ α) :
    Operation τ α where
  enter := do
    match ← f o.enter with
    | .finished a => return .finished a
    | .waiting job => return .waiting (f job)

/-- Makes the checks of operations, one after the other. -/
def enterAll : List (Operation σ α) → Effect σ (List (Except Failure (Turn σ α)))
  | [] => pure []
  | o :: rest => do
    let first ← Effect.attempt o.enter
    let others ← enterAll rest
    return first :: others

/-- Lets operations have their turns, in the order in which they asked. -/
def finishAll : List (Except Failure (Turn σ α)) → Effect σ (List (Except Failure α))
  | [] => pure []
  | .error f :: rest => do
    let others ← finishAll rest
    return .error f :: others
  | .ok turn :: rest => do
    let first ← Effect.attempt turn.finish
    let others ← finishAll rest
    return first :: others

/-- Runs operations at the same time. -/
def gather (operations : List (Operation σ α)) : Effect σ (List (Except Failure α)) := do
  let turns ← enterAll operations
  finishAll turns

end Operation
end RecordStore
