import RecordStore.Proofs.Engine.Transaction

/-!
Rules for connections. Opening a store keeps every stable property up to the transaction that an
upgrade begins, and from there on the one that it commits.
-/

namespace RecordStore

namespace Engine

variable {P Q : Engine → Prop} {e d : Engine} {id version : Nat} {path : String}

theorem IsStable.and (hP : IsStable P) (hQ : IsStable Q) : IsStable fun e => P e ∧ Q e where
  congr h hs hc ht := ⟨hP.congr h.1 hs hc ht, hQ.congr h.2 hs hc ht⟩
  connect h := ⟨hP.connect h.1, hQ.connect h.2⟩
  setConnection h hp hv hc hw :=
    ⟨hP.setConnection h.1 hp hv hc hw, hQ.setConnection h.2 hp hv hc hw⟩
  observed h hw := ⟨hP.observed h.1 hw, hQ.observed h.2 hw⟩
  close h := ⟨hP.close h.1, hQ.close h.2⟩
  make h := ⟨hP.make h.1, hQ.make h.2⟩
  setTransaction h hc hm ha hs :=
    ⟨hP.setTransaction h.1 hc hm ha hs, hQ.setTransaction h.2 hc hm ha hs⟩
  ended h ha := ⟨hP.ended h.1 ha, hQ.ended h.2 ha⟩

/-- A connection was made for a path and a version. -/
structure IsMadeFor (id : Nat) (path : String) (version : Nat) (e : Engine) : Prop where
  made : id < e.connections.length
  path : (e.connection id).path = path
  version : (e.connection id).version = version

theorem IsMadeFor.setConnection (h : e.IsMadeFor id path version) {other : Nat} {c : Connection}
    (hpath : c.path = (e.connection other).path) (hversion : c.version = (e.connection other).version) :
    (e.setConnection other c).IsMadeFor id path version where
  made := h.made.trans_eq List.length_set.symm
  path := (connection_setConnection_congr Connection.path hpath id).trans h.path
  version := (connection_setConnection_congr Connection.version hversion id).trans h.version

theorem IsMadeFor.congr (h : e.IsMadeFor id path version) (hc : d.connections = e.connections) :
    d.IsMadeFor id path version := by
  have hconnection := connection_congr hc id
  exact ⟨hc ▸ h.made, hconnection ▸ h.path, hconnection ▸ h.version⟩

theorem isStable_isMadeFor (id : Nat) (path : String) (version : Nat) :
    IsStable (IsMadeFor id path version) where
  congr h _ hc _ := h.congr hc
  connect {e path version} h := by
    have hconnection := connection_append_of_lt h.made ⟨path, version, false, [], [], .idle⟩
    refine ⟨?_, hconnection ▸ h.path, hconnection ▸ h.version⟩
    rw [List.length_append]
    exact Nat.lt_add_right _ h.made
  setConnection h hp hv _ _ := h.setConnection hp hv
  observed h _ := h.setConnection rfl rfl
  close h := h.setConnection rfl rfl
  make h := h.congr rfl
  setTransaction h _ _ _ _ := h.congr rfl
  ended {e tx} h _ :=
    (h.congr (d := e.setTransaction tx { e.transaction tx with isActive := false }) rfl).setConnection
      rfl rfl

end Engine

namespace Action

open Effect

variable {P Q E : Engine → Prop}

/-! ### Opening -/

/-- A connection that is made is the last one. -/
theorem meets_connect (hP : Engine.IsStable P) (n : Nat) (path : String) (version : Nat) :
    (connect path version).Meets (fun e => P e ∧ e.connections.length = n)
      (fun id e => (P e ∧ e.IsMadeFor n path version) ∧ id = n) P := by
  refine meets_of_each fun e ⟨he, hn⟩ => ?_
  subst hn
  refine meets_bind_of_ok rfl (meets_bind_of_ok rfl (meets_pure ?_))
  rintro _ rfl
  refine ⟨⟨hP.connect he, ?_, ?_, ?_⟩, rfl⟩
  · rw [List.length_append]
    exact Nat.lt_succ_self _
  all_goals
    rw [Engine.connection, List.getElem?_concat_length]
    rfl

theorem keeps_discard (hP : Engine.IsStable P) (id : Nat) : (discard id).Keeps P :=
  keeps_modify fun _ he => hP.close he

theorem keeps_announce (hP : Engine.IsStable P) (new : Option Nat) (ids : List Nat) :
    (announce new ids).Keeps P := by
  induction ids with
  | nil => exact keeps_pure _
  | cons id rest ih =>
      refine keeps_bind (keeps_connection id) fun _ => ?_
      exact keeps_bind (keeps_dispatch hP _ _) fun _ => ih

theorem keeps_checkBlockers (hP : Engine.IsStable P) (path : String) (old : Nat)
    (new : Option Nat) (callback : Option String) : (checkBlockers path old new callback).Keeps P := by
  refine ensures_bind ensures_get fun _ _ => ?_
  refine keeps_bind (keeps_announce hP _ _) fun _ => ?_
  refine ensures_bind ensures_get fun e he => ?_
  exact meets_ite (fun _ => keeps_bind (meets_set (hP.congr he rfl rfl rfl)) fun _ => keeps_throw _)
    fun _ => keeps_pure _

/-- An opening either needs no upgrade, or a transaction has begun on a new connection. -/
theorem meets_beginOpen {path : String} {version : Value} {callback : Option String} {n : Nat}
    {R : Engine → Prop} (hP : Engine.IsStable P)
    (hbegun : ∀ e tx, P e → e.IsReady tx → (e.transaction tx).connection = n →
      (e.connection n).path = path → R (e.begun tx)) :
    (beginOpen path version callback).Meets (fun e => P e ∧ e.connections.length = n)
      (fun o e => match o with
        | .current _ => P e
        | .upgrade _ _ _ _ => R e) P := by
  have hupgrade (old new : Nat) : (beginUpgrade n path old new callback).Meets
      (fun e => P e ∧ e.IsMadeFor n path new) (fun o e => match o with
        | .current _ => P e
        | .upgrade _ _ _ _ => R e) (fun e => P e ∧ e.IsMadeFor n path new) := by
    have hmade := hP.and (Engine.isStable_isMadeFor n path new)
    refine keeps_bind (keeps_checkBlockers hmade _ _ _ _) fun _ => ?_
    refine meets_bind (meets_make hmade n [] .versionchange) fun tx => ?_
    refine meets_bind (meets_begin (Q := R) hmade (fun _ he => he.1) ?_) fun _ =>
      meets_pure fun _ he => he
    rintro e ⟨⟨he, hmade⟩, hn⟩ hready
    exact hbegun e tx he hready hn hmade.path
  have hrest (requested : Nat) : Meets (fun e => P e ∧ e.connections.length = n) (do
      let stored := ((← get).store path).version
      if requested < stored then refuse (.lowerVersion requested stored)
      let id ← connect path requested
      if requested = stored then return .current id
      tryCatch (beginUpgrade id path stored requested callback) fun f => do
        discard id
        throw f) (fun o e => match o with
        | .current _ => P e
        | .upgrade _ _ _ _ => R e) P := by
    refine ensures_bind ensures_get fun e _ => ?_
    refine meets_guard (meets_throw _ fun _ hd => hd.1) fun _ => ?_
    refine ensures_bind (meets_connect hP n path requested) fun id hid => ?_
    rw [hid]
    refine meets_ite (fun _ => meets_pure fun _ he => he.1) fun _ => ?_
    exact meets_tryCatch (hupgrade _ _) fun f =>
      meets_bind ((keeps_discard hP n).imp (fun _ he => he.1) (fun _ _ he => he) fun _ he => he)
        fun _ => keeps_throw f
  cases version with
  | int n => exact meets_ite (fun _ => hrest n.toNat) fun _ =>
      meets_fail (meets_throw _ fun _ he => he.1)
  | _ => exact meets_fail (meets_throw _ fun _ he => he.1)

/-- An opening keeps what the beginning of a transaction keeps. -/
theorem keeps_beginOpen (hP : Engine.IsStable P)
    (hbegun : ∀ e tx, P e → e.IsReady tx → P (e.begun tx))
    (path : String) (version : Value) (callback : Option String) :
    (beginOpen path version callback).Keeps P := by
  refine meets_of_each fun e he => ?_
  refine (meets_beginOpen (n := e.connections.length) (R := P) hP ?_).imp
    (fun d hd => ⟨hd ▸ he, by rw [hd]⟩) (fun o d hd => ?_) fun _ hd => hd
  · exact fun d tx hd hready _ _ => hbegun d tx hd hready
  · cases o with
    | current id => exact hd
    | upgrade id tx old new => exact hd

theorem meets_finishOpen (hP : Engine.IsStable P) (id : Nat) :
    (finishOpen id).Meets P (fun _ => P) E := by
  refine ensures_bind (S := P) (T := P) (fun _ he => ⟨he, he⟩) fun e he => ?_
  refine meets_bind (Q := fun _ => P) (meets_set (hP.setConnection he rfl rfl rfl rfl)) fun _ => ?_
  exact meets_modify fun _ hs => hP.congr hs rfl rfl rfl

theorem keeps_abandon (hP : Engine.IsStable P) (id tx : Nat) (error : String) :
    (abandon id tx error).Keeps P :=
  keeps_bind (keeps_abort hP tx _) fun _ => keeps_discard hP id

theorem keeps_conclude_current (hP : Engine.IsStable P) (id : Nat) (result : Except Failure Unit) :
    (Opening.conclude (.current id) result).Keeps P :=
  keeps_bind (meets_finishOpen hP id) fun _ => keeps_pure _

/-- An upgrade is concluded by the commit of its transaction, if its callback has not failed. -/
theorem meets_conclude_upgrade {id tx old new : Nat} {result : Except Failure Unit}
    (hQ : Engine.IsStable Q) (hE : Engine.IsStable E) (hPE : ∀ e, P e → E e)
    (hwrite : (write tx fun s => { s with version := new }).Keeps P)
    (hcommit : result = .ok () → (commit tx).Meets P (fun _ => Q) E) :
    (Opening.conclude (.upgrade id tx old new) result).Meets P (fun _ => Q) E := by
  have hattempt : (attempt (do
      ofExcept result
      write tx fun s => { s with version := new })).Meets P
      (fun r e => P e ∧ (r = .ok () → result = .ok ())) E := by
    cases result with
    | error f => exact fun _ he => ⟨he, nofun⟩
    | ok u =>
        exact (keeps_attempt (keeps_bind (keeps_ofExcept (.ok u)) fun _ => hwrite)).imp
          (fun _ he => he) (fun _ _ he => ⟨he, fun _ => rfl⟩) hPE
  refine ensures_bind hattempt fun r hr => ?_
  cases r with
  | ok u =>
      refine meets_bind (hcommit (hr rfl)) fun _ => ?_
      exact meets_bind (meets_finishOpen hQ id) fun _ => meets_pure fun _ he => he
  | error f =>
      exact meets_bind ((keeps_abandon hE id tx f.className).imp hPE (fun _ _ he => he)
        fun _ he => he) fun _ => keeps_throw f

/-! ### Closing -/

theorem keeps_release (hP : Engine.IsStable P) (path : String) : (release path).Keeps P := by
  refine ensures_bind ensures_get fun e he => ?_
  exact meets_ite (fun _ => meets_set (hP.congr he rfl rfl rfl)) fun _ => keeps_pure _

theorem keeps_close (hP : Engine.IsStable P) (id : Nat) : (close id).Keeps P := by
  refine meets_of_each fun e he => ?_
  refine meets_bind_of_ok (x := e.connection id) rfl ?_
  refine meets_ite (fun _ => ?_) fun _ => meets_pure fun _ hd => hd ▸ he
  refine meets_bind_of_ok rfl ?_
  refine meets_bind (Q := fun _ => P) (meets_modify ?_) fun _ => keeps_release hP _
  rintro _ rfl
  exact hP.congr (hP.close he) rfl rfl rfl

theorem meets_deleteStore {path : String} {callback : Option String} (hP : Engine.IsStable P)
    (hforget : ∀ e, P e → Q (e.forget path)) : (deleteStore path callback).Meets P (fun _ => Q) P := by
  refine ensures_bind ensures_get fun _ _ => ?_
  refine keeps_bind (keeps_checkBlockers hP _ _ _ _) fun _ => ?_
  exact meets_bind (meets_modify hforget) fun _ => meets_pure fun _ he => he

/-! ### Listeners -/

theorem keeps_eventType (event : Value) : (eventType event).Keeps P := by
  unfold eventType
  split
  · exact keeps_throw _
  · exact keeps_pure _
  · exact keeps_throw _

theorem keeps_addListener (hP : Engine.IsStable P) (id : Nat) (event : Value) (fails : Bool) :
    (addListener id event fails).Keeps P := by
  refine keeps_bind (keeps_eventType event) fun type => ?_
  refine ensures_bind ensures_get fun e he => ?_
  refine keeps_bind (meets_set ?_) fun _ => keeps_pure _
  exact hP.setConnection (hP.congr he rfl rfl rfl) rfl rfl rfl rfl

theorem keeps_removeListener (hP : Engine.IsStable P) (id : Nat) (event : Value) (serial : Nat) :
    (removeListener id event serial).Keeps P := by
  refine keeps_bind (keeps_eventType event) fun type => ?_
  exact keeps_modify fun e he => hP.setConnection he rfl rfl rfl rfl

end Action
end RecordStore
