import RecordStore.Proofs.Engine.Reach
import RecordStore.Proofs.Engine.Versions

/-!
Who holds paths open. What a transaction does reaches itself, its connection and the notices; only the
conclusion of an opening lets a connection hold its path, so that in every state whoever holds a path is
a connection that was made, as long as no opening is concluded whose connection was not.
-/

namespace RecordStore

open Effect

/-! ### What a transaction reaches -/

namespace Engine

/-- A property that a transaction keeps whatever it does to itself, to its connection and to the
notices. -/
structure IsKeptWithin (tx : Nat) (P : Engine → Prop) : Prop where
  connection {e : Engine} {c : Connection} : P e → P (e.setConnection (e.transaction tx).connection c)
  transaction {e : Engine} {t : Transaction} : P e →
    t.connection = (e.transaction tx).connection → P (e.setTransaction tx t)
  notices {e : Engine} {notices : List Notice} : P e → P { e with notices := notices }

theorem IsKeptWithin.inReach {tx : Nat} {P : Engine → Prop} (hP : IsKeptWithin tx P) :
    IsKeptInReach tx P where
  rework he := hP.connection he
  transaction he ht := hP.transaction he ht
  told he := hP.notices he

end Engine

/-- The connection of an opening. -/
def Action.Opening.connection : Opening → Nat
  | .current id => id
  | .upgrade id _ _ _ => id

namespace Action

/-- An action does no more than to tell listeners, of which one may fail. -/
def OnlyTells (a : Action Unit) : Prop :=
  ∀ e, ∃ notices r, (r = .ok () ∨ r = .error (.argument .listenerReport)) ∧
    a e = ending r { e with notices := notices }

namespace OnlyTells

variable {a b : Action Unit}

theorem pure : OnlyTells (Pure.pure ()) := fun e => ⟨e.notices, .ok (), .inl rfl, rfl⟩

theorem bind (ha : OnlyTells a) (hb : OnlyTells b) : OnlyTells (a >>= fun _ => b) := by
  intro e
  obtain ⟨notices, r, rfl | rfl, hr⟩ := ha e
  · obtain ⟨notices', r', hr', hb⟩ := hb { e with notices := notices }
    exact ⟨notices', r', hr', (bind_of_ok hr _).trans hb⟩
  · exact ⟨notices, _, .inr rfl, bind_of_error hr _⟩

theorem keeps {P : Engine → Prop} (ha : OnlyTells a)
    (hP : ∀ e notices, P e → P { e with notices := notices }) : a.Keeps P := by
  refine meets_of_each fun e he => ?_
  obtain ⟨notices, r, _, hr⟩ := ha e
  exact meets_of_ending hr (fun _ _ => hP e notices he) fun _ _ => hP e notices he

end OnlyTells

theorem onlyTells_dispatch (id : Nat) (event : Event) : OnlyTells (dispatch id event) := by
  have htell (l : Listener) : OnlyTells (tell event l) := by
    intro e
    unfold tell
    cases l.fails with
    | false => exact ⟨_, .ok (), .inl rfl, rfl⟩
    | true => exact ⟨_, .error _, .inr rfl, rfl⟩
  have htellAll (listeners : List Listener) : OnlyTells (tellAll event listeners) := by
    induction listeners with
    | nil => exact .pure
    | cons l rest ih => exact (htell l).bind ih
  exact fun e => htellAll _ e

theorem onlyTells_announce (new : Option Nat) (ids : List Nat) : OnlyTells (announce new ids) := by
  induction ids with
  | nil => exact .pure
  | cons id rest ih => exact fun e => (onlyTells_dispatch id _).bind ih e

section Within

variable {P : Engine → Prop}

variable {tx : Nat} (hP : Engine.IsKeptWithin tx P)

include hP

theorem keeps_begin_within : (begin tx).Keeps P := keeps_begin_in_reach hP.inReach

theorem keeps_read_within : (read tx).Keeps P := keeps_read_in_reach hP.inReach

/-- After a write the transaction still has something under way. -/
theorem meets_write_within (change : Store → Store) : (write tx change).Meets P
    (fun _ d => P d ∧ ∃ w, d.HasUnderWay tx w) P := meets_write_in_reach hP.inReach change

theorem keeps_openCollection_within (name : Value) : (openCollection tx name).Keeps P :=
  keeps_openCollection_in_reach hP.inReach name

theorem keeps_abort_within (error : Option String) : (abort tx error).Keeps P :=
  keeps_abort_in_reach hP.inReach error

/-- So does a call through the transaction. -/
theorem keeps_run_within {c : EngineCall} (hc : c.through? = some tx) : c.run.Keeps P :=
  keeps_run_in_reach hP.inReach hc

end Within

/-- The conclusion of an opening reaches no further than its transaction, but that its connection comes to
hold the path or is given up. -/
theorem keeps_conclude_in_reach {P : Engine → Prop} {o : Opening}
    (hreach : ∀ tx, Engine.IsKeptInReach tx P)
    (hkeep : ∀ {e : Engine} {path : String} {s : Store}, P e → P (e.keep path s))
    (hdiscard : ∀ {e : Engine}, P e → P (e.closed o.connection))
    (hjoin : (finishOpen o.connection).Keeps P) (result : Except Failure Unit) :
    (o.conclude result).Keeps P := by
  cases o with
  | current id => exact keeps_bind hjoin fun _ => keeps_pure _
  | upgrade id tx old new =>
      have hwrite : (write tx fun s => { s with version := new }).Keeps P :=
        (meets_write_in_reach (hreach tx) _).imp (fun _ he => he) (fun _ _ he => he.1) fun _ he => he
      refine keeps_bind (keeps_attempt (keeps_bind (keeps_ofExcept result) fun _ => hwrite))
        fun r => ?_
      cases r with
      | ok u =>
          refine keeps_bind (keeps_commit_in_reach (hreach tx) hkeep) fun _ => ?_
          exact keeps_bind hjoin fun _ => keeps_pure _
      | error f =>
          refine keeps_bind (keeps_bind (keeps_abort_in_reach (hreach tx) _) fun _ => ?_) fun _ =>
            keeps_throw f
          exact keeps_modify fun _ he => hdiscard he

end Action

/-! ### Who holds paths open -/

/-- A call concludes no opening of a connection that was never made. -/
def EngineCall.ConcludesMade (e : Engine) : EngineCall → Prop
  | .conclude o _ => o.connection < e.connections.length
  | _ => True

/-- So do calls one after another. -/
def EngineCall.ConcludeMade (e : Engine) : List EngineCall → Prop
  | [] => True
  | c :: rest => c.ConcludesMade e ∧ ConcludeMade (c.run.after e) rest

namespace Engine

variable {e d : Engine}

/-- A state that calls lead to, of which each concludes only openings of connections that were made. -/
inductive IsAttained : Engine → Prop
  | initial : IsAttained initial
  | next {e : Engine} {c : EngineCall} : e.IsAttained → c.ConcludesMade e → (c.run.after e).IsAttained

theorem IsAttained.isReachable (he : e.IsAttained) : e.IsReachable := by
  induction he with
  | initial => exact .initial
  | next _ _ ih => exact ih.next _

theorem IsAttained.afterCalls (he : e.IsAttained) {calls : List EngineCall}
    (hcalls : EngineCall.ConcludeMade e calls) : (e.afterCalls calls).IsAttained := by
  induction calls generalizing e with
  | nil => exact he
  | cons c rest ih => exact ih (he.next hcalls.1) hcalls.2

/-- A property of who holds paths open that is kept as further connections are made and as some leave. -/
structure IsKeptByLeaving (P : Engine → Prop) : Prop where
  congr {e d : Engine} : P e → d.live = e.live → e.connections.length ≤ d.connections.length → P d
  leave {e : Engine} {id : Nat} : P e → P { e with live := e.live.filter (· != id) }

namespace IsKeptByLeaving

open RecordStore.Action

variable {P : Engine → Prop} (hP : IsKeptByLeaving P)

include hP

theorem setConnection (he : P e) (id : Nat) (c : Connection) : P (e.setConnection id c) :=
  hP.congr he rfl (Nat.le_of_eq List.length_set.symm)

theorem connected (he : P e) (path : String) (version : Nat) : P (e.connected path version) :=
  hP.congr he rfl (by rw [Engine.connected, List.length_append]; exact Nat.le_add_right _ _)

theorem within (tx : Nat) : IsKeptWithin tx P where
  connection he := hP.setConnection he _ _
  transaction he _ := hP.congr he rfl (Nat.le_refl _)
  notices he := hP.congr he rfl (Nat.le_refl _)

theorem keeps_checkBlockers (path : String) (old : Nat) (new : Option Nat) (callback : Option String) :
    (checkBlockers path old new callback).Keeps P := by
  refine ensures_bind ensures_get fun _ _ => ?_
  refine keeps_bind ((onlyTells_announce new _).keeps fun _ _ he => hP.congr he rfl (Nat.le_refl _))
    fun _ => ?_
  refine ensures_bind ensures_get fun e he => ?_
  exact meets_ite (fun _ => keeps_bind (meets_set (hP.congr he rfl (Nat.le_refl _))) fun _ =>
    keeps_throw _) fun _ => keeps_pure _

theorem keeps_make (id : Nat) (scope : List String) (mode : Mode) : (make id scope mode).Keeps P := by
  refine ensures_bind ensures_get fun e he => ?_
  exact keeps_bind (meets_set (hP.congr he rfl (Nat.le_refl _))) fun _ => keeps_pure _

theorem keeps_beginOpen (path : String) (version : Value) (callback : Option String) :
    (beginOpen path version callback).Keeps P := by
  have hupgrade (id old new : Nat) : (beginUpgrade id path old new callback).Keeps P := by
    refine keeps_bind (hP.keeps_checkBlockers path old _ callback) fun _ => ?_
    refine keeps_bind (hP.keeps_make id [] .versionchange) fun tx => ?_
    exact keeps_bind (keeps_begin_within (hP.within tx)) fun _ => keeps_pure _
  intro e he
  by_cases hvalid : ∃ v : Nat, 1 ≤ v ∧ version = .int v
  · obtain ⟨v, hv, rfl⟩ := hvalid
    have hconnected := hP.connected he path v
    rw [beginOpen_run hv]
    rcases Nat.lt_trichotomy v (e.store path).version with hlower | hcurrent | hhigher
    · rw [if_pos hlower]
      exact he
    · rw [if_neg (by omega), if_pos hcurrent]
      exact hconnected
    · rw [if_neg (by omega), if_neg (by omega)]
      exact meets_tryCatch (hupgrade _ _ _) (fun f => keeps_bind
        (keeps_modify fun e he => hP.setConnection he _ _) fun _ => keeps_throw f) _ hconnected
  · rw [beginOpen_of_invalid fun v hv h => hvalid ⟨v, hv, h⟩]
    exact he

theorem keeps_abandon (id tx : Nat) (error : String) : (abandon id tx error).Keeps P :=
  keeps_bind (keeps_abort_within (hP.within tx) _) fun _ =>
    keeps_modify fun _ he => hP.setConnection he id _

theorem keeps_commit (tx : Nat) : (commit tx).Keeps P :=
  keeps_commit_in_reach (hP.within tx).inReach fun he => hP.congr he rfl (Nat.le_refl _)

theorem keeps_close (id : Nat) : (close id).Keeps P := by
  refine keeps_bind (keeps_connection id) fun c => meets_ite (fun _ => ?_) fun _ => keeps_pure _
  refine keeps_bind (keeps_modify fun e he => hP.setConnection he id _) fun _ => ?_
  refine keeps_bind (keeps_modify fun e he => hP.leave he) fun _ => ?_
  refine ensures_bind ensures_get fun e he => ?_
  exact meets_ite (fun _ => meets_set (hP.congr he rfl (Nat.le_refl _))) fun _ => keeps_pure _

theorem keeps_deleteStore (path : String) (callback : Option String) :
    (deleteStore path callback).Keeps P := by
  refine ensures_bind ensures_get fun _ _ => ?_
  refine keeps_bind (hP.keeps_checkBlockers path _ none callback) fun _ => ?_
  exact keeps_bind (keeps_modify fun e he => hP.congr he rfl (Nat.le_refl _)) fun _ => keeps_pure _

theorem keeps_addListener (id : Nat) (event : Value) (fails : Bool) :
    (addListener id event fails).Keeps P := by
  refine keeps_bind (keeps_eventType event) fun type => ensures_bind ensures_get fun e he => ?_
  refine keeps_bind (meets_set (hP.setConnection ?_ _ _)) fun _ => keeps_pure _
  exact hP.congr he rfl (Nat.le_refl _)

theorem keeps_removeListener (id : Nat) (event : Value) (serial : Nat) :
    (removeListener id event serial).Keeps P :=
  keeps_bind (keeps_eventType event) fun _ => keeps_modify fun _ he => hP.setConnection he _ _

/-- Only the conclusion of an opening lets a connection hold its path. -/
theorem keeps_run (c : EngineCall)
    (hjoin : ∀ o result, c = .conclude o result → (finishOpen o.connection).Keeps P) : c.run.Keeps P := by
  have hnone {α : Type} {a : Action α} (ha : a.Keeps P) : (EngineCall.obtainsNone a).Keeps P :=
    EngineCall.meets_obtainsNone ha fun _ _ he => he
  cases hthrough : c.through? with
  | some tx => exact keeps_run_within (hP.within tx) hthrough
  | none =>
      cases c with
      | beginOpen path version callback => exact hnone (hP.keeps_beginOpen path version callback)
      | conclude o result =>
          refine hnone (keeps_conclude_in_reach (fun tx => (hP.within tx).inReach)
            (fun he => hP.congr he rfl (Nat.le_refl _)) (fun he => hP.setConnection he _ _) ?_ result)
          exact hjoin o result rfl
      | close id => exact hnone (hP.keeps_close id)
      | deleteStore path callback => exact hnone (hP.keeps_deleteStore path callback)
      | addListener id event fails => exact hnone (hP.keeps_addListener id event fails)
      | removeListener id event serial => exact hnone (hP.keeps_removeListener id event serial)
      | openTransaction id collections mode =>
          exact hnone (keeps_openTransaction_of_make (hP.keeps_make id) collections mode)
      | begin tx => exact hnone (keeps_begin_within (hP.within tx))
      | commit tx => exact hnone (hP.keeps_commit tx)
      | abort tx error => exact hnone (keeps_abort_within (hP.within tx) error)
      | _ => cases hthrough

end IsKeptByLeaving

/-- So many connections were made, and only connections that were made hold their paths open. -/
structure HoldsMade (n : Nat) (e : Engine) : Prop where
  le : n ≤ e.connections.length
  live : ∀ id ∈ e.live, id < e.connections.length

theorem isKeptByLeaving_holdsMade (n : Nat) : IsKeptByLeaving (HoldsMade n) where
  congr h hl hc :=
    ⟨Nat.le_trans h.le hc, fun id hid => Nat.lt_of_lt_of_le (h.live id (hl ▸ hid)) hc⟩
  leave h := ⟨h.le, fun other hother => h.live other (List.mem_of_mem_filter hother)⟩

end Engine

theorem Action.holdsMade_finishOpen {n id : Nat} (hid : id < n) :
    (finishOpen id).Keeps (Engine.HoldsMade n) := by
  refine ensures_bind ensures_get fun e he => ?_
  refine keeps_bind (meets_set ((Engine.isKeptByLeaving_holdsMade n).setConnection he _ _)) fun _ =>
    keeps_modify fun d hd => ⟨hd.le, ?_⟩
  intro other hother
  rcases List.mem_append.1 hother with hlive | hlast
  · exact hd.live other hlive
  · rw [List.mem_singleton.1 hlast]
    exact Nat.lt_of_lt_of_le hid hd.le

theorem EngineCall.holdsMade_after {e : Engine} (he : e.HoldsMade 0) {c : EngineCall}
    (hc : c.ConcludesMade e) : (c.run.after e).HoldsMade 0 := by
  have hmade : e.HoldsMade e.connections.length := ⟨Nat.le_refl _, he.live⟩
  have hrun := (Engine.isKeptByLeaving_holdsMade e.connections.length).keeps_run c (by
    rintro o result rfl
    exact Action.holdsMade_finishOpen hc)
  exact ⟨Nat.zero_le _, (Effect.Meets.after hrun hmade).live⟩

theorem Engine.IsAttained.holdsMade {e : Engine} (h : e.IsAttained) : e.HoldsMade 0 := by
  induction h with
  | initial => exact ⟨Nat.zero_le _, nofun⟩
  | next _ hc ih => exact EngineCall.holdsMade_after ih hc

end RecordStore
