import Mathlib.Data.List.Forall2
import RecordStore.Proofs.Effect
import RecordStore.Turn

/-!
Effects that agree. Two effects agree on a relation of states if, from related states, both yield related
results or both fail with the same failure, and leave related states. What they yield is then told by what
the relation keeps of a state, and by nothing else. Operations agree if they do so in what they enter with
and in the jobs that they leave.
-/

namespace RecordStore
namespace Effect

variable {σ τ α β γ δ : Type} {M : σ → σ → Prop} {V : α → β → Prop} {W : γ → δ → Prop}

/-- Two effects end alike from two states: with results that `V` relates or with one failure, in states that
`M` relates. -/
inductive EndsAlike (M : σ → σ → Prop) (V : α → β → Prop) (a : Effect σ α) (b : Effect σ β) (s t : σ) :
    Prop
  | ok {x : α} {y : β} {s' t' : σ} (ha : a s = .ok x s') (hb : b t = .ok y t') (hV : V x y)
    (hM : M s' t')
  | error {f : Failure} {s' t' : σ} (ha : a s = .error f s') (hb : b t = .error f t') (hM : M s' t')

/-- Two effects end alike from all states that `M` relates. -/
def Agree (M : σ → σ → Prop) (V : α → β → Prop) (a : Effect σ α) (b : Effect σ β) : Prop :=
  ∀ s t, M s t → EndsAlike M V a b s t

theorem Agree.exists_ending {a b : Effect σ α} (h : Agree M Eq a b) {s t : σ} (hst : M s t) :
    ∃ r s' t', a s = ending r s' ∧ b t = ending r t' ∧ M s' t' := by
  cases h s t hst with
  | @ok x y s' t' ha hb hV hM =>
      subst hV
      exact ⟨.ok x, s', t', ha, hb, hM⟩
  | @error f s' t' ha hb hM => exact ⟨.error f, s', t', ha, hb, hM⟩

/-- Effects that come down to others end as these do. -/
theorem EndsAlike.congr {a a' : Effect σ α} {b b' : Effect σ β} {s t s' t' : σ}
    (h : EndsAlike M V a b s t) (ha : a' s' = a s) (hb : b' t' = b t) : EndsAlike M V a' b' s' t' := by
  cases h with
  | ok hok hok' hV hM => exact .ok (ha.trans hok) (hb.trans hok') hV hM
  | error herror herror' hM => exact .error (ha.trans herror) (hb.trans herror') hM

theorem endsAlike_of_ending {a b : Effect σ α} {r : Except Failure α} {s t s' t' : σ}
    (ha : a s = ending r s') (hb : b t = ending r t') (hM : M s' t') : EndsAlike M Eq a b s t := by
  cases r with
  | ok x => exact .ok ha hb rfl hM
  | error f => exact .error ha hb hM

/-- Effects that agree yield the same, if they yield anything. -/
theorem Agree.result?_eq {a b : Effect σ α} (h : Agree M Eq a b) {s t : σ} (hst : M s t) :
    b.result? t = a.result? s := by
  cases h s t hst with
  | ok ha hb hV _ => rw [result?_of_ok ha, result?_of_ok hb, hV]
  | error ha hb _ => rw [result?_of_error ha, result?_of_error hb]

/-- An effect that agrees with itself wherever `P` holds keeps `P`. -/
theorem Agree.keeps {P : σ → Prop} {V : α → α → Prop} {a : Effect σ α} (h : Agree (fun s t => s = t ∧ P s) V a a) :
    a.Keeps P := by
  intro s hs
  cases h s s ⟨rfl, hs⟩ with
  | ok ha _ _ hM =>
      rw [ha]
      exact hM.2
  | error ha _ hM =>
      rw [ha]
      exact hM.2

/-! ### One rule for each way of making effects -/

theorem agree_pure {x : α} {y : β} (h : V x y) : Agree M V (pure x) (pure y) :=
  fun _ _ hst => .ok rfl rfl h hst

theorem agree_throw (f : Failure) : Agree M V (throw f) (throw f) := fun _ _ hst => .error rfl rfl hst

/-- What comes after a sure failure does not count. -/
theorem agree_throw_bind (f : Failure) {g : α → Effect σ γ} {g' : β → Effect σ δ} :
    Agree M W ((throw f : Effect σ α) >>= g) ((throw f : Effect σ β) >>= g') :=
  fun _ _ hst => .error rfl rfl hst

theorem agree_ofExcept (r : Except Failure α) : Agree M Eq (ofExcept r) (ofExcept r) :=
  fun s t hst => endsAlike_of_ending (ofExcept_run r s) (ofExcept_run r t) hst

theorem EndsAlike.bind {a : Effect σ α} {b : Effect σ β} {s t : σ} (h : EndsAlike M V a b s t)
    {f : α → Effect σ γ} {g : β → Effect σ δ} (hf : ∀ x y, V x y → Agree M W (f x) (g y)) :
    EndsAlike M W (a >>= f) (b >>= g) s t := by
  cases h with
  | ok ha hb hV hM => exact (hf _ _ hV _ _ hM).congr (bind_of_ok ha _) (bind_of_ok hb _)
  | error ha hb hM => exact .error (bind_of_error ha _) (bind_of_error hb _) hM

theorem agree_bind {a : Effect σ α} {b : Effect σ β} {f : α → Effect σ γ} {g : β → Effect σ δ}
    (ha : Agree M V a b) (hf : ∀ x y, V x y → Agree M W (f x) (g y)) :
    Agree M W (a >>= f) (b >>= g) :=
  fun s t hst => (ha s t hst).bind hf

/-- A part that yields the same from related states. -/
theorem agree_bind_eq {a b : Effect σ α} {f : α → Effect σ γ} {g : α → Effect σ δ}
    (ha : Agree M Eq a b) (hf : ∀ x, Agree M W (f x) (g x)) : Agree M W (a >>= f) (b >>= g) :=
  agree_bind ha fun x _ hxy => hxy ▸ hf x

theorem agree_ite {c : Prop} [Decidable c] {a a' : Effect σ α} {b b' : Effect σ β}
    (ha : Agree M V a b) (hb : Agree M V a' b') :
    Agree M V (if c then a else a') (if c then b else b') := by
  split
  · exact ha
  · exact hb

theorem agree_modify {f g : σ → σ} (h : ∀ s t, M s t → M (f s) (g t)) :
    Agree M Eq (modify f : Effect σ Unit) (modify g) :=
  fun s t hst => .ok rfl rfl rfl (h s t hst)

/-- Reading off a state what is the same in related states. -/
theorem agree_gets {f g : σ → α} (h : ∀ s t, M s t → f s = g t) :
    Agree M Eq (do return f (← get) : Effect σ α) (do return g (← get)) :=
  fun s t hst => .ok rfl rfl (h s t hst) hst

theorem EndsAlike.tryCatch {a b : Effect σ α} {s t : σ} (h : EndsAlike M Eq a b s t)
    {handle handle' : Failure → Effect σ α} (hh : ∀ f, Agree M Eq (handle f) (handle' f)) :
    EndsAlike M Eq (tryCatch a handle) (tryCatch b handle') s t := by
  cases h with
  | ok ha hb hV hM => exact .ok (tryCatch_of_ok ha _) (tryCatch_of_ok hb _) hV hM
  | @error f s' t' ha hb hM =>
      exact (hh f s' t' hM).congr (tryCatch_of_error ha _) (tryCatch_of_error hb _)

theorem agree_tryCatch {a b : Effect σ α} {handle handle' : Failure → Effect σ α} (ha : Agree M Eq a b)
    (hh : ∀ f, Agree M Eq (handle f) (handle' f)) :
    Agree M Eq (tryCatch a handle) (tryCatch b handle') :=
  fun s t hst => (ha s t hst).tryCatch hh

theorem agree_attempt {a b : Effect σ α} (h : Agree M Eq a b) : Agree M Eq (attempt a) (attempt b) :=
  agree_tryCatch (agree_bind_eq h fun _ => agree_pure rfl) fun _ => agree_pure rfl

/-- Effects on parts of states agree if putting back related parts leaves related states. -/
theorem agree_focus {part : σ → τ} {put : τ → σ → σ} {N : τ → τ → Prop} {a : Effect τ α} {b : Effect τ β}
    (h : Agree N V a b) (hpart : ∀ s t, M s t → N (part s) (part t))
    (hput : ∀ s t x y, M s t → N x y → M (put x s) (put y t)) :
    Agree M V (focus part put a) (focus part put b) := by
  intro s t hst
  cases h _ _ (hpart s t hst) with
  | ok ha hb hV hN =>
      refine .ok ?_ ?_ hV (hput s t _ _ hst hN)
      · rw [focus, ha]
      · rw [focus, hb]
  | @error f _ _ ha hb hN =>
      refine .error (f := f) ?_ ?_ (hput s t _ _ hst hN)
      · rw [focus, ha]
      · rw [focus, hb]

end Effect

/-! ### Operations -/

open Effect

variable {σ τ α β : Type} {M N : σ → σ → Prop}

/-- Two operations after their checks: both are over with one result, or their jobs agree. -/
inductive Turn.Agree (M : σ → σ → Prop) : Turn σ α → Turn σ α → Prop
  | finished (x : α) : Agree M (.finished x) (.finished x)
  | waiting {job job' : Effect σ α} (h : Effect.Agree M Eq job job') : Agree M (.waiting job) (.waiting job')

/-- Two operations after they were entered: both were refused for one failure, or their turns agree. -/
inductive Turn.EnterAlike (M : σ → σ → Prop) : Except Failure (Turn σ α) → Except Failure (Turn σ α) → Prop
  | refused (f : Failure) : EnterAlike M (.error f) (.error f)
  | entered {a b : Turn σ α} (h : a.Agree M b) : EnterAlike M (.ok a) (.ok b)

theorem Turn.Agree.finish {a b : Turn σ α} (h : a.Agree M b) : Effect.Agree M Eq a.finish b.finish := by
  cases h with
  | finished x => exact agree_pure rfl
  | waiting h => exact h

namespace Operation

/-- An operation does the same when it is entered from states that `M` relates, and when its turn comes in
states that `N` relates. -/
def Respects (M N : σ → σ → Prop) (o : Operation σ α) : Prop :=
  Effect.Agree M (Turn.Agree N) o.enter o.enter

variable {o : Operation σ α}

theorem respects_ofTask {t : Effect σ α} (h : Effect.Agree M Eq t t) : (ofTask t).Respects M N :=
  agree_bind_eq h fun x => agree_pure (.finished x)

theorem Respects.andThen (h : o.Respects M N) {f : α → Effect σ β}
    (hM : ∀ x, Effect.Agree M Eq (f x) (f x)) (hN : ∀ x, Effect.Agree N Eq (f x) (f x)) :
    (o.andThen f).Respects M N := by
  refine agree_bind h fun a b hab => ?_
  cases hab with
  | finished x => exact agree_bind_eq (hM x) fun y => agree_pure (.finished y)
  | waiting hjob => exact agree_pure (.waiting (agree_bind_eq hjob hN))

/-- An operation that goes on without regard to the state. -/
theorem Respects.andThen_pure (h : o.Respects M N) (f : α → β) :
    (o.andThen fun x => pure (f x)).Respects M N :=
  h.andThen (fun _ => agree_pure rfl) fun _ => agree_pure rfl

/-- An operation on a part of a state. -/
theorem Respects.lift (h : o.Respects M N) {P Q : τ → τ → Prop} {part : τ → σ} {put : σ → τ → τ}
    (hpart : ∀ s t, P s t → M (part s) (part t)) (hput : ∀ s t x y, P s t → M x y → P (put x s) (put y t))
    (hpart' : ∀ s t, Q s t → N (part s) (part t)) (hput' : ∀ s t x y, Q s t → N x y → Q (put x s) (put y t)) :
    (o.lift (Effect.focus part put)).Respects P Q := by
  refine agree_bind (agree_focus h hpart hput) fun a b hab => ?_
  cases hab with
  | finished x => exact agree_pure (.finished x)
  | waiting hjob => exact agree_pure (.waiting (agree_focus hjob hpart' hput'))

theorem agree_attempt_enter (h : o.Respects M N) :
    Effect.Agree M (Turn.EnterAlike N) (attempt o.enter) (attempt o.enter) := by
  intro s t hst
  cases h s t hst with
  | @ok a b _ _ ha hb hV hM =>
      exact .ok (attempt_of_ending (r := .ok a) ha) (attempt_of_ending (r := .ok b) hb) (.entered hV) hM
  | @error f _ _ ha hb hM =>
      exact .ok (attempt_of_ending (r := .error f) ha) (attempt_of_ending (r := .error f) hb) (.refused f) hM

theorem agree_enterAll {os : List (Operation σ α)} (h : ∀ o ∈ os, o.Respects M N) :
    Effect.Agree M (List.Forall₂ (Turn.EnterAlike N)) (enterAll os) (enterAll os) := by
  induction os with
  | nil => exact agree_pure .nil
  | cons o rest ih =>
      obtain ⟨ho, hrest⟩ := List.forall_mem_cons.1 h
      exact agree_bind (agree_attempt_enter ho) fun _ _ hxy =>
        agree_bind (ih hrest) fun _ _ hall => agree_pure (.cons hxy hall)

theorem agree_finishAll {xs ys : List (Except Failure (Turn σ α))}
    (h : List.Forall₂ (Turn.EnterAlike M) xs ys) : Effect.Agree M Eq (finishAll xs) (finishAll ys) := by
  induction h with
  | nil => exact agree_pure rfl
  | cons hxy _ ih =>
      cases hxy with
      | refused f => exact agree_bind_eq ih fun _ => agree_pure rfl
      | entered hab =>
          exact agree_bind_eq (agree_attempt hab.finish) fun _ => agree_bind_eq ih fun _ => agree_pure rfl

/-- Operations at the same time do the same from related states. -/
theorem agree_gather {os : List (Operation σ α)} (h : ∀ o ∈ os, o.Respects M M) :
    Effect.Agree M Eq (gather os) (gather os) :=
  agree_bind (agree_enterAll h) fun _ _ hall => agree_finishAll hall

end Operation
end RecordStore
