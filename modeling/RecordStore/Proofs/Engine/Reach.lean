import RecordStore.Proofs.Engine.Calls
import RecordStore.Proofs.Engine.Drafts

/-!
How far a transaction reaches. Beginning it, working through it and giving it up change no more than its
own record and the work of its connection, and tell listeners; a commit keeps a store besides.
-/

namespace RecordStore

open Effect

namespace Engine

/-- A property that a transaction keeps by changing itself and the work of its connection, and by telling
listeners. -/
structure IsKeptInReach (tx : Nat) (P : Engine → Prop) : Prop where
  rework {e : Engine} {w : Work} : P e → P (e.rework tx w)
  transaction {e : Engine} {t : Transaction} : P e →
    t.connection = (e.transaction tx).connection → P (e.setTransaction tx t)
  told {e : Engine} {listener : Nat} {event : Event} : P e →
    P { e with notices := e.notices ++ [.delivered listener event] }

/-- What hinders a transaction that was not started yet from beginning. -/
def hindrance (e : Engine) (tx : Nat) : Option ArgumentFault :=
  let t := e.transaction tx
  let c := e.connection t.connection
  if c.isClosed then some .connectionGone
  else match c.work with
    | .idle =>
      if t.mode ≠ .readonly ∧ Action.hasOtherWriter e t.connection c.path = true then some .writerBusy
      else none
    | _ => some .nestedTransaction

end Engine

namespace Action

/-- A transaction that is hindered from beginning is started all the same. -/
theorem begin_run (tx : Nat) (e : Engine) : begin tx e =
    if (e.transaction tx).isStarted = true then .error (.store .alreadyStarted) e
    else match e.hindrance tx with
      | some f =>
        .error (.argument f) (e.setTransaction tx { e.transaction tx with isStarted := true })
      | none => .ok () (e.begun tx) := by
  have htransaction : transaction tx e = .ok (e.transaction tx) e := rfl
  unfold begin
  rw [bind_of_ok htransaction]
  by_cases hstarted : (e.transaction tx).isStarted = true
  · rw [if_pos hstarted, if_pos hstarted]
    rfl
  rw [if_neg hstarted, if_neg hstarted]
  refine (modify_bind _ _ _).trans ?_
  have hstatement := statement_run (e.transaction tx)
    (e.setTransaction tx { e.transaction tx with isStarted := true })
  change _ = if (e.connection (e.transaction tx).connection).isClosed = true then _ else
    EStateM.Result.ok (e.connection (e.transaction tx).connection) _ at hstatement
  by_cases hclosed : (e.connection (e.transaction tx).connection).isClosed = true
  · rw [if_pos hclosed] at hstatement
    rw [bind_of_error hstatement, Engine.hindrance, if_pos hclosed]
  rw [if_neg hclosed] at hstatement
  rw [bind_of_ok hstatement, Engine.hindrance, if_neg hclosed]
  cases hwork : (e.connection (e.transaction tx).connection).work with
  | reading snapshot => rfl
  | writing draft => rfl
  | idle =>
      have hagain (w : Work) : ((e.setTransaction tx { e.transaction tx with
          isStarted := true }).setConnection (e.transaction tx).connection
            { e.connection (e.transaction tx).connection with work := w }).setTransaction tx
              { e.transaction tx with isStarted := true, isActive := true } =
          (e.rework tx w).setTransaction tx
            { e.transaction tx with isStarted := true, isActive := true } :=
        Engine.setTransaction_again e tx _ _
      by_cases hmode : (e.transaction tx).mode = .readonly
      · have hfree : ¬((e.transaction tx).mode ≠ .readonly ∧ hasOtherWriter e (e.transaction tx).connection
            (e.connection (e.transaction tx).connection).path = true) := fun h => h.1 hmode
        simp only [if_neg hfree, if_pos hmode]
        refine congrArg (EStateM.Result.ok ()) ((hagain _).trans ?_)
        rw [Engine.begun, if_pos hmode]
        rfl
      · -- that the transaction is started now makes no difference to the drafts of others
        have hother : hasOtherWriter (e.setTransaction tx { e.transaction tx with isStarted := true })
            (e.transaction tx).connection (e.connection (e.transaction tx).connection).path =
          hasOtherWriter e (e.transaction tx).connection
            (e.connection (e.transaction tx).connection).path := rfl
        have hget (d : Engine) : (get : Action Engine) d = .ok d d := rfl
        by_cases hbusy : hasOtherWriter e (e.transaction tx).connection
            (e.connection (e.transaction tx).connection).path = true
        · simp only [if_pos (And.intro hmode hbusy), if_neg hmode]
          refine (bind_of_ok (hget _) _).trans ?_
          simp only [if_pos (hother.trans hbusy)]
          rfl
        · simp only [if_neg fun h : _ ∧ _ => hbusy h.2, if_neg hmode]
          refine (bind_of_ok (hget _) _).trans ?_
          have hstill := fun h => hbusy (hother.symm.trans h)
          simp only [if_neg hstill]
          refine congrArg (EStateM.Result.ok ()) ((hagain _).trans ?_)
          rw [Engine.begun, if_neg hmode]
          rfl

/-- A new transaction can begin if nothing hinders it. -/
theorem isReady_iff {e : Engine} {tx : Nat} :
    e.IsReady tx ↔ (e.transaction tx).isStarted = false ∧ e.hindrance tx = none := by
  constructor
  · rintro ⟨hnew, hopen, hidle, halone⟩
    rw [Engine.hindrance, hopen, if_neg Bool.false_ne_true, hidle]
    refine ⟨hnew, if_neg fun ⟨hmode, hbusy⟩ => ?_⟩
    rcases halone with hread | halone
    · exact hmode hread
    · exact Bool.false_ne_true (halone.symm.trans hbusy)
  · rintro ⟨hnew, hnone⟩
    rw [Engine.hindrance] at hnone
    split at hnone
    · cases hnone
    · next hopen =>
      split at hnone
      · next hidle =>
        refine ⟨hnew, Bool.eq_false_iff.2 hopen, hidle, ?_⟩
        by_contra hbusy
        push Not at hbusy
        rw [if_pos ⟨hbusy.1, Bool.not_eq_false _ ▸ hbusy.2⟩] at hnone
        cases hnone
      · cases hnone

theorem begin_of_ready {e : Engine} {tx : Nat} (h : e.IsReady tx) : begin tx e = .ok () (e.begun tx) := by
  obtain ⟨hnew, hnone⟩ := isReady_iff.1 h
  rw [begin_run, hnew, if_neg Bool.false_ne_true, hnone]

variable {P : Engine → Prop}

theorem keeps_dispatch_told (htold : ∀ {e : Engine} {listener : Nat} {event : Event}, P e →
    P { e with notices := e.notices ++ [.delivered listener event] }) (id : Nat) (event : Event) :
    (dispatch id event).Keeps P := by
  have htellAll (listeners : List Listener) : (tellAll event listeners).Keeps P := by
    induction listeners with
    | nil => exact keeps_pure _
    | cons l rest ih =>
        refine keeps_bind (keeps_bind (keeps_modify fun _ he => htold he) fun _ => ?_) fun _ => ih
        exact meets_ite (fun _ => keeps_throw _) fun _ => keeps_pure _
  exact keeps_bind (keeps_connection id) fun _ => htellAll _

theorem keeps_openTransaction_of_make {id : Nat} (hmake : ∀ scope mode, (make id scope mode).Keeps P)
    (collections mode : Value) : (openTransaction id collections mode).Keeps P := by
  unfold openTransaction
  refine keeps_bind (keeps_connection id) fun c => meets_guard (keeps_throw _) fun _ => ?_
  have hrest (mode : Mode) : Keeps P (do
      let names ← ofExcept (Key.formatResult (listed collections))
      if names.isEmpty then reject .noCollections
      let scope ← ofExcept (Key.storeResult (known c.collectionNames names))
      make id scope mode) := by
    refine keeps_bind (keeps_ofExcept _) fun names => meets_guard (keeps_throw _) fun _ => ?_
    exact keeps_bind (keeps_ofExcept _) fun scope => hmake scope mode
  split
  · exact hrest .readonly
  · exact hrest .readwrite
  · exact meets_fail (keeps_throw _)

variable {tx : Nat} (hP : Engine.IsKeptInReach tx P)

include hP

theorem keeps_begin_in_reach : (begin tx).Keeps P := by
  refine meets_of_each fun e he => ?_
  have hstarted : P (e.setTransaction tx { e.transaction tx with isStarted := true }) :=
    hP.transaction he rfl
  have hbegun : P (e.begun tx) := hP.transaction (e := e.rework tx _) (hP.rework he) rfl
  rintro d rfl
  rw [begin_run]
  by_cases h : (d.transaction tx).isStarted = true
  · rw [if_pos h]
    exact he
  · rw [if_neg h]
    cases d.hindrance tx with
    | some f => exact hstarted
    | none => exact hbegun

theorem keeps_read_in_reach : (read tx).Keeps P := by
  refine meets_of_each fun e he => ?_
  refine meets_ensureActive_bind he fun t ht _ => meets_statement_bind he fun c hc _ => ?_
  subst ht hc
  have hsame : ∀ d, d = e → P d := fun _ hd => hd ▸ he
  cases (e.connection (e.transaction tx).connection).work with
  | idle => exact meets_bind_of_ok rfl (meets_pure hsame)
  | writing draft => exact meets_pure hsame
  | reading snapshot =>
      cases snapshot with
      | some s => exact meets_pure hsame
      | none =>
          refine meets_bind_of_ok rfl (meets_bind_of_ok rfl (meets_pure ?_))
          rintro _ rfl
          exact hP.rework he

/-- After a write the transaction still has something under way. -/
theorem meets_write_in_reach (change : Store → Store) : (write tx change).Meets P
    (fun _ d => P d ∧ ∃ w, d.HasUnderWay tx w) P := by
  refine meets_of_each fun e he => ?_
  refine meets_ensureActive_bind he fun t ht hactive => meets_statement_bind he fun c hc hopen => ?_
  subst ht hc
  have hsame : ∀ d, d = e → P d ∧ ∃ w, d.HasUnderWay tx w :=
    fun _ hd => hd ▸ ⟨he, _, hactive, hopen, rfl⟩
  cases hwork : (e.connection (e.transaction tx).connection).work with
  | idle => exact meets_pure hsame
  | reading snapshot => exact meets_pure hsame
  | writing draft =>
      refine meets_modify ?_
      rintro _ rfl
      have hwas := Engine.HasUnderWay.mk hactive hopen hwork
      exact ⟨hP.rework he, _, hwas.rework (.writing (change draft))⟩

theorem keeps_openCollection_in_reach (name : Value) : (openCollection tx name).Keeps P := by
  rw [openCollection_eq]
  refine meets_of_each fun e he => meets_transaction_bind fun t ht => ?_
  subst ht
  -- a read gives no transaction another connection
  have hconnection : Engine.IsKeptInReach tx fun d =>
      P d ∧ (d.transaction tx).connection = (e.transaction tx).connection := by
    refine ⟨fun hd => ⟨hP.rework hd.1, hd.2⟩, fun {d t} hd ht => ⟨hP.transaction hd.1 ht, ?_⟩,
      fun hd => ⟨hP.told hd.1, hd.2⟩⟩
    rcases Engine.transaction_setTransaction d tx t tx with heq | ⟨_, heq⟩
    · rw [heq, hd.2]
    · rw [heq, ht, hd.2]
  have hscope : Meets (· = e) (if (e.transaction tx).mode = .versionchange then collectionNames tx
      else pure (e.transaction tx).scope)
        (fun _ d => P d ∧ (d.transaction tx).connection = (e.transaction tx).connection) P := by
    have hsame : ∀ d, d = e → P d ∧ (d.transaction tx).connection = (e.transaction tx).connection := by
      rintro _ rfl
      exact ⟨he, rfl⟩
    exact meets_ite (fun _ => (keeps_collectionNames (keeps_read_in_reach hconnection)).imp hsame
      (fun _ _ hd => hd) fun _ hd => hd.1) fun _ => meets_pure hsame
  refine meets_bind hscope fun scope => meets_bind (Q := fun _ => P)
    (meets_modify fun d hd => hP.transaction hd.1 hd.2.symm) fun _ => ?_
  exact (ensures_openIn (S := fun _ => True) ((keeps_read_in_reach hP).imp (fun _ hd => hd)
    (fun _ _ hd => ⟨hd, trivial⟩) fun _ hd => hd) name scope).keeps

theorem keeps_abort_in_reach (error : Option String) : (abort tx error).Keeps P := by
  have hdispatch (id : Nat) (event : Event) : (dispatch id event).Keeps P :=
    keeps_dispatch_told (fun he => hP.told he) id event
  refine meets_of_each fun e he => meets_transaction_bind fun t ht => ?_
  subst ht
  refine meets_ite (fun _ => ?_) fun _ => meets_pure fun _ hd => hd ▸ he
  have hinactive : P (e.setTransaction tx { e.transaction tx with isActive := false }) :=
    hP.transaction he rfl
  refine meets_bind_of_ok rfl (meets_statement_bind hinactive fun c hc _ => ?_)
  subst hc
  refine meets_bind (Q := fun _ => P) (meets_modify ?_) fun _ => ?_
  · rintro _ rfl
    exact hP.transaction (e := e.rework tx .idle) (hP.rework he) rfl
  · exact meets_ite (fun _ => keeps_bind (hdispatch _ _) fun _ => hdispatch _ _) fun _ => hdispatch _ _

/-- A commit does no more than that, but for the store that it keeps. -/
theorem keeps_commit_in_reach (hkeep : ∀ {e : Engine} {path : String} {s : Store}, P e → P (e.keep path s)) :
    (commit tx).Keeps P := by
  refine meets_of_each fun e he => meets_ensureActive_bind he fun t ht _ => ?_
  subst ht
  have hinactive : P (e.setTransaction tx { e.transaction tx with isActive := false }) :=
    hP.transaction he rfl
  refine meets_bind_of_ok rfl (meets_statement_bind hinactive fun c hc _ => ?_)
  have hended : P ((e.rework tx .idle).setTransaction tx { e.transaction tx with isActive := false }) :=
    hP.transaction (hP.rework he) rfl
  cases c.work with
  | writing draft =>
      refine meets_bind_of_ok rfl (meets_modify ?_)
      rintro _ rfl
      subst hc
      exact hkeep hended
  | _ =>
      refine meets_bind_of_ok rfl (meets_modify ?_)
      rintro _ rfl
      subst hc
      exact hended

/-- So does a call through the transaction. -/
theorem keeps_run_in_reach {c : EngineCall} (hc : c.through? = some tx) : c.run.Keeps P :=
  EngineCall.keeps_run_of_through hc (keeps_read_in_reach hP)
    (fun change => (meets_write_in_reach hP change).imp (fun _ hd => hd) (fun _ _ hd => hd.1)
      fun _ hd => hd) (keeps_openCollection_in_reach hP)

end Action
end RecordStore
