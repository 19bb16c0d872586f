import RecordStore.Effect

/-!
What effects meet. An effect that fails has still changed the state, so a specification has two
ends: what holds of the state and the yield after a success, and what holds of the state after a
failure. An effect keeps a property of the state if both ends have it again.
-/

namespace RecordStore
namespace Effect

variable {σ τ α β : Type} {P E : σ → Prop} {Q : α → σ → Prop} {R : β → σ → Prop} {T : α → Prop}

/-- The state after an effect, also after one that fails. -/
def after (a : Effect σ α) (s : σ) : σ :=
  match a s with
  | .ok _ t => t
  | .error _ t => t

/-- What an effect yields from a state, if it does not fail. -/
def result? (a : Effect σ α) (s : σ) : Option α :=
  match a s with
  | .ok x _ => some x
  | .error _ _ => none

/-- From states with `P`, an effect either yields something so that `Q` holds, or fails so that `E`
holds. -/
def Meets (P : σ → Prop) (a : Effect σ α) (Q : α → σ → Prop) (E : σ → Prop) : Prop :=
  ∀ s, P s → match a s with
    | .ok x t => Q x t
    | .error _ t => E t

/-- An effect keeps a property of the state, and yields only what has a property of its own. -/
abbrev Ensures (P : σ → Prop) (T : α → Prop) (a : Effect σ α) : Prop :=
  a.Meets P (fun x t => P t ∧ T x) P

/-- An effect keeps a property of the state, however it ends. -/
abbrev Keeps (P : σ → Prop) (a : Effect σ α) : Prop := a.Meets P (fun _ t => P t) P

theorem Meets.of_ok {a : Effect σ α} (h : a.Meets P Q E) {s t : σ} {x : α} (hs : P s)
    (ha : a s = .ok x t) : Q x t := by
  have := h s hs
  rw [ha] at this
  exact this

theorem Meets.of_error {a : Effect σ α} (h : a.Meets P Q E) {s t : σ} {f : Failure} (hs : P s)
    (ha : a s = .error f t) : E t := by
  have := h s hs
  rw [ha] at this
  exact this

theorem Meets.after {a : Effect σ α} (h : a.Meets P (fun _ => E) E) {s : σ} (hs : P s) :
    E (a.after s) := by
  unfold Effect.after
  cases ha : a s with
  | ok x t => exact h.of_ok hs ha
  | error f t => exact h.of_error hs ha

/-- An effect that cannot succeed fails. -/
theorem Meets.exists_error {a : Effect σ α} (h : a.Meets P (fun _ _ => False) E) {s : σ} (hs : P s) :
    ∃ f t, a s = .error f t ∧ E t := by
  cases ha : a s with
  | ok x t => exact (h.of_ok hs ha).elim
  | error f t => exact ⟨f, t, rfl, h.of_error hs ha⟩

theorem Meets.imp {a : Effect σ α} (h : a.Meets P Q E) {S F : σ → Prop} {U : α → σ → Prop}
    (hpre : ∀ s, S s → P s) (hok : ∀ x t, Q x t → U x t) (herror : ∀ t, E t → F t) :
    a.Meets S U F := by
  intro s hs
  cases ha : a s with
  | ok x t => exact hok x t (h.of_ok (hpre s hs) ha)
  | error f t => exact herror t (h.of_error (hpre s hs) ha)

theorem Meets.imp_error {a : Effect σ α} (h : a.Meets P Q E) {F : σ → Prop}
    (herror : ∀ t, E t → F t) : a.Meets P Q F :=
  h.imp (fun _ hs => hs) (fun _ _ hs => hs) herror

theorem Keeps.and {a : Effect σ α} {P Q : σ → Prop} (hP : a.Keeps P) (hQ : a.Keeps Q) :
    a.Keeps fun s => P s ∧ Q s := by
  intro s ⟨hp, hq⟩
  cases ha : a s with
  | ok x t => exact ⟨hP.of_ok hp ha, hQ.of_ok hq ha⟩
  | error f t => exact ⟨hP.of_error hp ha, hQ.of_error hq ha⟩

theorem Ensures.keeps {a : Effect σ α} (h : a.Ensures P T) : a.Keeps P :=
  h.imp (fun _ => id) (fun _ _ => And.left) fun _ => id

/-! ### One rule for each way of making effects -/

theorem meets_pure {x : α} (h : ∀ s, P s → Q x s) : (pure x : Effect σ α).Meets P Q E := h

theorem meets_throw (f : Failure) (h : ∀ s, P s → E s) : (throw f : Effect σ α).Meets P Q E := h

theorem meets_set {s : σ} {Q : Unit → σ → Prop} (h : Q () s) :
    (set s : Effect σ Unit).Meets P Q E :=
  fun _ _ => h

theorem meets_modify {f : σ → σ} {Q : Unit → σ → Prop} (h : ∀ s, P s → Q () (f s)) :
    (modify f : Effect σ Unit).Meets P Q E := h

theorem meets_ofExcept {r : Except Failure α} (hok : ∀ x, r = .ok x → ∀ s, P s → Q x s)
    (herror : ∀ s, P s → E s) : (ofExcept r : Effect σ α).Meets P Q E := by
  cases r with
  | error f => exact meets_throw f herror
  | ok x => exact meets_pure (hok x rfl)

theorem meets_bind {a : Effect σ α} {f : α → Effect σ β} (ha : a.Meets P Q E)
    (hf : ∀ x, (f x).Meets (Q x) R E) : (a >>= f).Meets P R E := by
  intro s hs
  change match EStateM.bind a f s with
    | .ok x t => R x t
    | .error _ t => E t
  rw [EStateM.bind]
  cases h : a s with
  | ok x t => exact hf x t (ha.of_ok hs h)
  | error e t => exact ha.of_error hs h

theorem meets_tryCatch {a : Effect σ α} {handle : Failure → Effect σ α} {F : σ → Prop}
    (ha : a.Meets P Q F) (hh : ∀ f, (handle f).Meets F Q E) :
    (tryCatch a handle).Meets P Q E := by
  intro s hs
  change match EStateM.tryCatch a handle s with
    | .ok x t => Q x t
    | .error _ t => E t
  delta EStateM.tryCatch
  cases h : a s with
  | ok x t => exact ha.of_ok hs h
  | error f t => exact hh f t (ha.of_error hs h)

/-- What comes after a sure failure does not count. -/
theorem meets_fail {a : Effect σ α} {f : α → Effect σ β} (ha : a.Meets P (fun _ _ => False) E) :
    (a >>= f).Meets P R E :=
  meets_bind ha fun _ _ hs => hs.elim

/-! ### Running from one state -/

theorem bind_of_ok {a : Effect σ α} {s t : σ} {x : α} (ha : a s = .ok x t) (f : α → Effect σ β) :
    (a >>= f) s = f x t := by
  change EStateM.bind a f s = _
  rw [EStateM.bind, ha]

theorem bind_of_error {a : Effect σ α} {s t : σ} {g : Failure} (ha : a s = .error g t)
    (f : α → Effect σ β) : (a >>= f) s = .error g t := by
  change EStateM.bind a f s = _
  rw [EStateM.bind, ha]

theorem exists_of_bind {a : Effect σ α} {f : α → Effect σ β} {s u : σ} {y : β}
    (h : (a >>= f) s = .ok y u) : ∃ x t, a s = .ok x t ∧ f x t = .ok y u := by
  cases ha : a s with
  | error g t =>
      rw [bind_of_error ha] at h
      cases h
  | ok x t =>
      rw [bind_of_ok ha] at h
      exact ⟨x, t, rfl, h⟩

/-- What comes after a check was reached only if the check did not fail. -/
theorem passed_of_guard {c : Prop} [Decidable c] {f : Failure} {g : α → Effect σ β}
    {rest : Effect σ β} {s u : σ} {y : β}
    (h : (if c then (throw f : Effect σ α) >>= g else rest) s = .ok y u) : ¬c ∧ rest s = .ok y u := by
  split at h
  · cases h
  · next hc => exact ⟨hc, h⟩

theorem tryCatch_of_ok {a : Effect σ α} {s t : σ} {x : α} (ha : a s = .ok x t)
    (handle : Failure → Effect σ α) : tryCatch a handle s = .ok x t := by
  change EStateM.tryCatch a handle s = _
  delta EStateM.tryCatch
  rw [ha]

theorem tryCatch_of_error {a : Effect σ α} {s t : σ} {f : Failure} (ha : a s = .error f t)
    (handle : Failure → Effect σ α) : tryCatch a handle s = handle f t := by
  change EStateM.tryCatch a handle s = _
  delta EStateM.tryCatch
  rw [ha]
  rfl

theorem result?_of_ok {a : Effect σ α} {s t : σ} {x : α} (ha : a s = .ok x t) :
    a.result? s = some x := by
  rw [result?, ha]

theorem result?_of_error {a : Effect σ α} {s t : σ} {f : Failure} (ha : a s = .error f t) :
    a.result? s = none := by
  rw [result?, ha]

theorem exists_ok_of_result? {a : Effect σ α} {s : σ} {x : α} (h : a.result? s = some x) :
    ∃ t, a s = .ok x t := by
  cases ha : a s with
  | ok y t =>
      cases (result?_of_ok ha).symm.trans h
      exact ⟨t, rfl⟩
  | error f t =>
      rw [result?, ha] at h
      cases h

theorem exists_error_of_result? {a : Effect σ α} {s : σ} (h : a.result? s = none) :
    ∃ f t, a s = .error f t := by
  cases ha : a s with
  | ok y t => cases (result?_of_ok ha).symm.trans h
  | error f t => exact ⟨f, t, rfl⟩

theorem modify_bind (f : σ → σ) (g : Unit → Effect σ β) (s : σ) : (modify f >>= g) s = g () (f s) := rfl

/-- The end of an effect whose result and state are both known. -/
def ending (r : Except Failure α) (s : σ) : EStateM.Result Failure σ α :=
  match r with
  | .ok x => .ok x s
  | .error f => .error f s

theorem ofExcept_run (r : Except Failure α) (s : σ) : (ofExcept r : Effect σ α) s = ending r s := by
  cases r with
  | error f => rfl
  | ok x => rfl

theorem ending_eq_ok_iff {r : Except Failure α} {s t : σ} {x : α} :
    ending r s = .ok x t ↔ r = .ok x ∧ s = t := by
  cases r with
  | error f => exact ⟨nofun, nofun⟩
  | ok y => exact ⟨by rintro ⟨⟩; exact ⟨rfl, rfl⟩, by rintro ⟨⟨⟩, rfl⟩; rfl⟩

theorem ending_eq_error_iff {r : Except Failure α} {s t : σ} {f : Failure} :
    ending r s = .error f t ↔ r = .error f ∧ s = t := by
  cases r with
  | error g => exact ⟨by rintro ⟨⟩; exact ⟨rfl, rfl⟩, by rintro ⟨⟨⟩, rfl⟩; rfl⟩
  | ok x => exact ⟨nofun, nofun⟩

theorem ending_inj {r r' : Except Failure α} {s t : σ} (h : ending r s = ending r' t) : r = r' ∧ s = t := by
  cases r' with
  | ok x => exact ending_eq_ok_iff.1 h
  | error f => exact ending_eq_error_iff.1 h

theorem meets_of_each {a : Effect σ α} (h : ∀ s, P s → a.Meets (· = s) Q E) : a.Meets P Q E :=
  fun s hs => h s hs s rfl

theorem meets_bind_of_ok {a : Effect σ α} {f : α → Effect σ β} {s t : σ} {x : α}
    (ha : a s = .ok x t) (hf : (f x).Meets (· = t) R E) : (a >>= f).Meets (· = s) R E := by
  refine meets_bind (Q := fun y u => y = x ∧ u = t) ?_ fun y u ⟨hy, hu⟩ => ?_
  · rintro _ rfl
    rw [ha]
    exact ⟨rfl, rfl⟩
  · subst hy
    exact hf u hu

theorem meets_bind_of_error {a : Effect σ α} {f : α → Effect σ β} {s t : σ} {g : Failure}
    (ha : a s = .error g t) (ht : E t) : (a >>= f).Meets (· = s) R E := by
  refine meets_fail ?_
  rintro _ rfl
  rw [ha]
  exact ht

/-- An attempt yields how an effect ends, and never fails. -/
theorem attempt_of_ending {a : Effect σ α} {s t : σ} {r : Except Failure α}
    (ha : a s = ending r t) : attempt a s = .ok r t := by
  change EStateM.tryCatch (a >>= fun x => pure (Except.ok x)) (fun f => pure (.error f)) s = _
  delta EStateM.tryCatch
  cases r with
  | ok x =>
      rw [bind_of_ok ha]
      rfl
  | error f =>
      rw [bind_of_error ha]
      rfl

theorem attempt_bind_of_ok {a : Effect σ α} {s t : σ} {x : α} (ha : a s = .ok x t)
    (f : α → Effect σ β) : attempt (a >>= f) s = attempt (f x) t := by
  cases hf : f x t with
  | ok y u => rw [attempt_of_ending (r := .ok y) ((bind_of_ok ha f).trans hf), attempt_of_ending (r := .ok y) hf]
  | error g u =>
      rw [attempt_of_ending (r := .error g) ((bind_of_ok ha f).trans hf),
        attempt_of_ending (r := .error g) hf]

theorem exists_ending (a : Effect σ α) (s : σ) : ∃ r, a s = ending r (a.after s) := by
  unfold Effect.after
  cases ha : a s with
  | ok x t => exact ⟨.ok x, rfl⟩
  | error f t => exact ⟨.error f, rfl⟩

/-- What is made of the yield does not matter to how an effect ends. -/
theorem return_of_ending {a : Effect σ α} {s t : σ} {r : Except Failure α} (ha : a s = ending r t) (f : α → β) :
    (do return f (← a) : Effect σ β) s = ending (r.map f) t := by
  cases r with
  | ok x => exact bind_of_ok ha _
  | error g => exact bind_of_error ha _

theorem meets_of_ending {a : Effect σ α} {s t : σ} {r : Except Failure α} (ha : a s = ending r t)
    (hok : ∀ x, r = .ok x → Q x t) (herror : ∀ f, r = .error f → E t) :
    a.Meets (· = s) Q E := by
  rintro _ rfl
  rw [ha]
  cases r with
  | ok x => exact hok x rfl
  | error f => exact herror f rfl

/-- From a state an effect leads to another, however it ends. -/
abbrev Leads (s : σ) (a : Effect σ α) (t : σ) : Prop := a.Meets (· = s) (fun _ u => u = t) (· = t)

theorem leads_of_ending {a : Effect σ α} {s t : σ} {r : Except Failure α} (ha : a s = ending r t) :
    a.Leads s t :=
  meets_of_ending ha (fun _ _ => rfl) fun _ _ => rfl

/-- The state after an effect whose yield does not count. -/
theorem after_of_ending {a : Effect σ α} {s t : σ} {r : Except Failure α} (h : a s = ending r t) :
    after (do
      let _ ← a
      return ()) s = t := by
  have hleads : Leads s (do
      let _ ← a
      return () : Effect σ Unit) t :=
    meets_bind (leads_of_ending h) fun _ => meets_pure fun _ hu => hu
  exact hleads.after rfl

/-! ### Failures -/

/-- An effect fails with a failure of some class. -/
def Raises (a : Effect σ α) (errorClass : String) (s : σ) : Prop :=
  ∃ f t, a s = .error f t ∧ f.className = errorClass

theorem raises_of_error {a : Effect σ α} {s t : σ} {f : Failure} (h : a s = .error f t)
    (errorClass : String) : a.Raises errorClass s ↔ f.className = errorClass := by
  constructor
  · rintro ⟨g, u, hg, hclass⟩
    rw [h] at hg
    cases hg
    exact hclass
  · exact fun hclass => ⟨f, t, h, hclass⟩

theorem not_raises_of_ok {a : Effect σ α} {s t : σ} {x : α} (h : a s = .ok x t)
    (errorClass : String) : ¬a.Raises errorClass s := by
  rintro ⟨g, u, hg, _⟩
  rw [h] at hg
  cases hg

/-! ### Keeping a property -/

theorem keeps_pure (x : α) : (pure x : Effect σ α).Keeps P := fun _ => id

theorem keeps_throw (f : Failure) : (throw f : Effect σ α).Meets P Q P := fun _ => id

theorem keeps_ofExcept (r : Except Failure α) : (ofExcept r : Effect σ α).Keeps P :=
  meets_ofExcept (fun _ _ _ => id) fun _ => id

/-- Reading something off the state. -/
theorem keeps_gets (g : σ → α) : (do return g (← get) : Effect σ α).Keeps P := fun _ => id

/-- The state that is read has the property too. -/
theorem ensures_get : (get : Effect σ σ).Ensures P P := fun _ hs => ⟨hs, hs⟩

theorem keeps_modify {f : σ → σ} (h : ∀ s, P s → P (f s)) :
    (modify f : Effect σ Unit).Keeps P := h

theorem meets_ite {c : Prop} [Decidable c] {a b : Effect σ α} (ha : c → a.Meets P Q E)
    (hb : ¬c → b.Meets P Q E) : (if c then a else b).Meets P Q E := by
  split
  · next hc => exact ha hc
  · next hc => exact hb hc

/-- A check that fails before the rest. -/
theorem meets_guard {c : Prop} [Decidable c] {a : Effect σ α} {f : α → Effect σ β}
    {rest : Effect σ β} (ha : a.Meets P (fun _ _ => False) E) (hrest : ¬c → rest.Meets P R E) :
    (if c then a >>= f else rest).Meets P R E :=
  meets_ite (fun _ => meets_fail ha) hrest

/-- An attempt cannot fail. -/
theorem meets_attempt {a : Effect σ α} (ha : a.Keeps P) : (attempt a).Meets P (fun _ => P) E :=
  meets_tryCatch (meets_bind ha fun _ => meets_pure fun _ hs => hs) fun _ => meets_pure fun _ hs => hs

theorem keeps_attempt {a : Effect σ α} (ha : a.Keeps P) : (attempt a).Keeps P := meets_attempt ha

/-- A part that keeps the state, whatever it yields. -/
theorem keeps_bind {a : Effect σ α} {f : α → Effect σ β} (ha : a.Keeps P)
    (hf : ∀ x, (f x).Meets P R P) : (a >>= f).Meets P R P :=
  meets_bind ha hf

/-- A part of which the rest uses what it yields. -/
theorem ensures_bind {S : σ → Prop} {a : Effect σ α} {f : α → Effect σ β}
    (ha : a.Meets P (fun x t => S t ∧ T x) E) (hf : ∀ x, T x → (f x).Meets S R E) :
    (a >>= f).Meets P R E :=
  meets_bind ha fun x s ⟨hs, hx⟩ => hf x hx s hs

/-! ### The state afterwards -/

theorem after_of_ok {a : Effect σ α} {s t : σ} {x : α} (ha : a s = .ok x t) : a.after s = t := by
  rw [Effect.after, ha]

theorem after_of_error {a : Effect σ α} {s t : σ} {f : Failure} (ha : a s = .error f t) : a.after s = t := by
  rw [Effect.after, ha]

theorem after_bind_of_ok {a : Effect σ α} {s t : σ} {x : α} (ha : a s = .ok x t) (f : α → Effect σ β) :
    (a >>= f).after s = (f x).after t := by
  rw [Effect.after, bind_of_ok ha]
  rfl

theorem after_bind_of_error {a : Effect σ α} {s t : σ} {g : Failure} (ha : a s = .error g t)
    (f : α → Effect σ β) : (a >>= f).after s = t :=
  after_of_error (bind_of_error ha f)

/-- What is made of the yield does not matter to the state. -/
theorem after_map (a : Effect σ α) (f : α → β) (s : σ) :
    after (do return f (← a)) s = after a s := by
  cases ha : a s with
  | ok x t =>
      rw [after_of_ok ha]
      exact after_of_ok (bind_of_ok ha _)
  | error g t =>
      rw [after_of_error ha]
      exact after_of_error (bind_of_error ha _)

theorem keeps_iff_after {a : Effect σ α} : a.Keeps P ↔ ∀ s, P s → P (a.after s) := by
  refine ⟨fun h s hs => h.after hs, fun h s hs => ?_⟩
  have hafter := h s hs
  unfold Effect.after at hafter
  cases ha : a s with
  | ok x t =>
      rw [ha] at hafter
      exact hafter
  | error f t =>
      rw [ha] at hafter
      exact hafter

theorem Keeps.ensures {a : Effect σ α} (h : a.Keeps P) (hT : ∀ s x t, a s = .ok x t → T x) :
    a.Ensures P T := by
  intro s hs
  cases ha : a s with
  | ok x t => exact ⟨h.of_ok hs ha, hT s x t ha⟩
  | error f t => exact h.of_error hs ha

/-! ### Parts of a state -/

/-- What an effect on a part of a state meets. -/
theorem meets_focus {part : σ → τ} {put : τ → σ → σ} {a : Effect τ α} {S F : τ → Prop} {U : α → τ → Prop}
    (ha : a.Meets S U F) (hpart : ∀ s, P s → S (part s)) (hok : ∀ s x t, P s → U x t → Q x (put t s))
    (herror : ∀ s t, P s → F t → E (put t s)) : (focus part put a).Meets P Q E := by
  intro s hs
  have hmet := ha (part s) (hpart s hs)
  unfold focus
  cases hrun : a (part s) with
  | ok x t =>
      rw [hrun] at hmet
      exact hok s x t hs hmet
  | error f t =>
      rw [hrun] at hmet
      exact herror s t hs hmet

end Effect
end RecordStore
