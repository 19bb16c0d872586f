import RecordStore.Proofs.Engine.Reach
import RecordStore.Proofs.Engine.Registry
import RecordStore.Proofs.Schema.Upgrading

/-!
The course of an upgrade. Its transaction goes on with other contents in its draft until its callback
commits or aborts it; after that no call of the callback does anything. In the end the new version is
committed with the draft, or the connection is given up and the version stays.
-/

namespace RecordStore

open Effect

/-- The callback of an upgrade that acts on its own transaction only: the calls that it makes, whatever
it makes of their failures, and its own result. -/
structure Upgrade where
  calls (tx old new : Nat) : List EngineCall
  result (tx old new : Nat) : Except Failure Unit
  concerns : ∀ tx old new, ∀ c ∈ calls tx old new, c.Concerns tx

def Upgrade.act (u : Upgrade) (tx old new : Nat) : Action Unit :=
  EngineCall.body (u.calls tx old new) (u.result tx old new)

theorem Contents.isOrdered_changed {k : Contents} (hk : k.IsOrdered)
    (change : Option (String × Change)) : (k.changed change).IsOrdered := by
  cases change with
  | none => exact hk
  | some change => exact hk.set _ _

/-! ### The calls of the callback -/

/-- What the calls of a callback lead to, from where its transaction began with a draft: the transaction
goes on, or it is over and its draft was kept or dropped. -/
inductive Engine.IsUpgrading (e : Engine) (tx : Nat) (s : Store) : Engine → Prop
  | going {k : Contents} (scope : List String) (hk : k.IsOrdered) :
      IsUpgrading e tx s (e.upgraded tx s k scope)
  | ended {k : Contents} (scope : List String) (hk : k.IsOrdered) {w : Work}
      (hw : w = .idle ∨ w = .writing { s with contents := k }) :
      IsUpgrading e tx s (((e.upgraded tx s k scope).keepWork
        (e.connection (e.transaction tx).connection).path w).ended tx)

section Calls

variable {e d : Engine} {tx : Nat} {s : Store} {k : Contents} {scope : List String} {w : Work}

theorem Engine.isUpgrading_self (hs : e.draft? tx = some s) (hk : s.contents.IsOrdered) :
    e.IsUpgrading tx s e := by
  have hgoing : e.IsUpgrading tx s (e.upgraded tx s s.contents (e.transaction tx).scope) :=
    .going _ hk
  rw [upgraded_self hs] at hgoing
  exact hgoing

theorem Engine.HasUnderWay.keepWork (h : e.HasUnderWay tx w) (path : String) (v : Work) :
    (e.keepWork path v).HasUnderWay tx w := by
  cases v with
  | writing s => exact ⟨h.active, h.isOpen, h.work⟩
  | _ => exact h

/-- An abort on a connection without listeners ends the transaction, and that is all. -/
theorem Action.abort_of_unheard (h : e.HasUnderWay tx w)
    (hnone : (e.connection (e.transaction tx).connection).listeners = []) (error : Option String) :
    abort tx error e = .ok () (e.ended tx) := by
  have hdispatch (event : Event) :
      dispatch (e.transaction tx).connection event (e.ended tx) = .ok () (e.ended tx) := by
    unfold dispatch
    rw [bind_of_ok (connection_run _ _)]
    have hlisteners : ((e.ended tx).connection (e.transaction tx).connection).listeners = [] := by
      unfold Engine.ended
      exact (Engine.connection_setConnection_congr Connection.listeners (by rfl) _).trans hnone
    rw [hlisteners]
    rfl
  have htransaction : transaction tx e = .ok (e.transaction tx) e := rfl
  unfold abort
  rw [bind_of_ok htransaction, if_pos h.active, modify_bind, bind_of_ok (statement_run_ended h),
    modify_bind]
  cases error with
  | none => exact hdispatch _
  | some error => exact (bind_of_ok (hdispatch _) _).trans (hdispatch _)

variable (hs : e.draft? tx = some s)

include hs

theorem Engine.connection_upgraded (k : Contents) (scope : List String) :
    (e.upgraded tx s k scope).connection (e.transaction tx).connection =
      { e.connection (e.transaction tx).connection with work := .writing { s with contents := k } } :=
  connection_rework_self (draft?_eq_some_iff.1 hs) _

theorem Engine.connection_transaction_upgraded (k : Contents) (scope : List String) :
    (e.upgraded tx s k scope).connection ((e.upgraded tx s k scope).transaction tx).connection =
      { e.connection (e.transaction tx).connection with work := .writing { s with contents := k } } := by
  rw [transaction_upgraded hs]
  exact connection_upgraded hs k scope

variable (hmode : (e.transaction tx).mode = .versionchange)
  (hstarted : (e.transaction tx).isStarted = true)
  (hnone : (e.connection (e.transaction tx).connection).listeners = [])

include hstarted in
theorem Engine.isOver_keepWork_ended (k : Contents) (scope : List String) (path : String) (w : Work) :
    (((e.upgraded tx s k scope).keepWork path w).ended tx).IsOver tx := by
  have hunderWay := draft?_eq_some_iff.1 (draft?_upgraded hs k scope)
  have hwas : ((e.upgraded tx s k scope).transaction tx).isStarted = true := by
    rw [transaction_upgraded hs]
    exact hstarted
  refine Action.isOver_ended (hunderWay.keepWork path w) ?_
  cases w with
  | _ => exact hwas

include hmode

/-- A call through the transaction changes the contents of its draft, and at most the scope. -/
theorem EngineCall.exists_after_upgraded {c : EngineCall} (hc : c.through? = some tx)
    (hk : k.IsOrdered) (scope : List String) : ∃ k' scope', k'.IsOrdered ∧
      c.run.after (e.upgraded tx s k scope) = e.upgraded tx s k' scope' := by
  have hreads : ((e.upgraded tx s k scope).transaction tx).mode ≠ .readonly := by
    rw [Engine.transaction_upgraded hs, hmode]
    decide
  obtain ⟨scope', hafter, _⟩ := (Effect.Meets.after
    ((EngineCall.meets_run_of_draft hc (Engine.draft?_upgraded hs k scope) hreads).imp
      (fun _ hd => hd) (fun _ _ hd => hd.1) fun _ hd => hd) rfl).eq
  have hchanged (change : Option (String × Change)) :
      ((e.upgraded tx s k scope).drafted tx { s with contents := k } change).rescope tx scope' =
        e.upgraded tx s (k.changed change) scope' :=
    (congrArg (Engine.rescope · tx scope') (Engine.redraft_upgraded hs k _ scope)).trans
      (Engine.rescope_upgraded hs _ scope scope')
  refine ⟨k.changed _, scope', ?_, hafter.trans (hchanged _)⟩
  exact Contents.isOrdered_changed hk _

include hstarted hnone

/-- Whatever concerns the transaction lets the upgrade go on, or ends it. -/
theorem EngineCall.isUpgrading_run {c : EngineCall} (hc : c.Concerns tx)
    (hd : Engine.IsUpgrading e tx s d) : Engine.IsUpgrading e tx s (c.run.after d) := by
  cases hd with
  | @ended k scope hk w hw =>
      have hover := Engine.isOver_keepWork_ended hs hstarted k scope
        (e.connection (e.transaction tx).connection).path w
      rw [Effect.Meets.after (leads_run_of_isOver hover hc) rfl]
      exact .ended scope hk hw
  | @going k scope hk =>
      have hunderWay := Engine.draft?_eq_some_iff.1 (Engine.draft?_upgraded hs k scope)
      have hconnection := Engine.connection_transaction_upgraded hs k scope
      have hends {a : Action Unit} {d' : Engine} (ha : a (e.upgraded tx s k scope) = .ok () d') :
          (obtainsNone a).after (e.upgraded tx s k scope) = d' :=
        (leads_of_ending (r := .ok none) (bind_of_ok ha _)).after rfl
      -- the calls through the transaction, and those that begin, commit and abort it
      rcases hc with hthrough | rfl | rfl | ⟨error, rfl⟩
      · obtain ⟨k', scope', hk', hafter⟩ :=
          exists_after_upgraded hs hmode hthrough hk scope
        rw [hafter]
        exact .going scope' hk'
      · -- the transaction was begun before, so that this call fails
        have hwas : ((e.upgraded tx s k scope).transaction tx).isStarted = true := by
          rw [Engine.transaction_upgraded hs]
          exact hstarted
        have hrefused : (Action.begin tx).Leads (e.upgraded tx s k scope) (e.upgraded tx s k scope) := by
          refine meets_bind_of_ok (x := (e.upgraded tx s k scope).transaction tx) rfl ?_
          rw [if_pos hwas]
          exact meets_fail (keeps_throw _)
        have hsame : (begin tx).run.after (e.upgraded tx s k scope) = e.upgraded tx s k scope :=
          Meets.after (meets_obtainsNone hrefused fun _ _ hd => hd) rfl
        rw [hsame]
        exact .going scope hk
      · refine (hends (Action.commit_run hunderWay)).symm ▸ ?_
        rw [hconnection]
        exact .ended scope hk (.inr rfl)
      · have hunheard := Action.abort_of_unheard hunderWay (by rw [hconnection]; exact hnone) error
        refine (hends hunheard).symm ▸ ?_
        exact .ended scope hk (w := .idle) (.inl rfl)

/-- So do all calls of a callback, one after the other. -/
theorem EngineCall.isUpgrading_afterCalls {calls : List EngineCall} (hcalls : ∀ c ∈ calls, c.Concerns tx)
    (hd : Engine.IsUpgrading e tx s d) : Engine.IsUpgrading e tx s (d.afterCalls calls) := by
  induction calls generalizing d with
  | nil => exact hd
  | cons c rest ih =>
      obtain ⟨hc, hrest⟩ := List.forall_mem_cons.1 hcalls
      exact ih hrest (isUpgrading_run hs hmode hstarted hnone hc hd)

end Calls

/-! ### A connection that is being opened -/

/-- A connection is being opened to a path at a version, and nobody holds the path open. -/
structure Engine.Opens (id : Nat) (path : String) (version : Nat) (e : Engine) : Prop where
  inStep : e.IsInStep (· = id)
  free : e.liveAt path = []
  isOpen : (e.connection id).isClosed = false
  path : (e.connection id).path = path
  version : (e.connection id).version = version
  unheard : (e.connection id).listeners = []

namespace Engine

theorem liveAt_congr {e d : Engine} {path : String} (hl : d.live = e.live)
    (hc : ∀ id, (d.connection id).path = (e.connection id).path) : d.liveAt path = e.liveAt path := by
  unfold liveAt
  rw [hl]
  exact List.filter_congr fun id _ => by rw [hc]

namespace Opens

variable {e d : Engine} {id version tx : Nat} {path : String} {s : Store} {k : Contents}

/-- Transactions and notices do not count. -/
theorem congr (h : e.Opens id path version) (hs : d.stores = e.stores)
    (hc : d.connections = e.connections) (hl : d.live = e.live) : d.Opens id path version := by
  have hconnection := connection_congr hc
  refine ⟨h.inStep.congr hs hc hl, ?_, ?_, ?_, ?_, ?_⟩
  · rw [liveAt_congr hl fun id => by rw [hconnection]]
    exact h.free
  · rw [hconnection]
    exact h.isOpen
  · rw [hconnection]
    exact h.path
  · rw [hconnection]
    exact h.version
  · rw [hconnection]
    exact h.unheard

/-- It may have anything under way. -/
theorem setWork (h : e.Opens id path version) (w : Work) :
    (e.setConnection id { e.connection id with work := w }).Opens id path version := by
  have hself : (e.setConnection id { e.connection id with work := w }).connection id =
      { e.connection id with work := w } := connection_setConnection_self h.isOpen
  have hpath (other : Nat) : ((e.setConnection id { e.connection id with work := w }).connection
      other).path = (e.connection other).path :=
    connection_setConnection_congr Connection.path (by rfl) other
  refine ⟨h.inStep.setConnection (absurd rfl) (h.inStep.quiet id), ?_, ?_, ?_, ?_, ?_⟩
  · exact (liveAt_congr (by rfl) hpath).trans h.free
  · rw [hself]
    exact h.isOpen
  · rw [hself]
    exact h.path
  · rw [hself]
    exact h.version
  · rw [hself]
    exact h.unheard

theorem keep (h : e.Opens id path version) (hs : s.contents.IsOrdered) :
    (e.keep path s).Opens id path version where
  inStep := h.inStep.keep h.free hs
  free := h.free
  isOpen := h.isOpen
  path := h.path
  version := h.version
  unheard := h.unheard

variable (hid : (e.transaction tx).connection = id)

include hid

theorem redraft (h : e.Opens id path version) (s : Store) : (e.redraft tx s).Opens id path version := by
  subst hid
  exact h.setWork (.writing s)

theorem upgraded (h : e.Opens id path version) (s : Store) (k : Contents) (scope : List String) :
    (e.upgraded tx s k scope).Opens id path version :=
  (h.redraft hid { s with contents := k }).congr rfl rfl rfl

theorem begun (h : e.Opens id path version) : (e.begun tx).Opens id path version := by
  subst hid
  exact (h.setWork _).congr rfl rfl rfl

theorem ended (h : e.Opens id path version) : (e.ended tx).Opens id path version := by
  subst hid
  exact (h.setWork .idle).congr rfl rfl rfl

theorem work_ended (h : e.Opens id path version) : ((e.ended tx).connection id).work = .idle := by
  subst hid
  exact congrArg Connection.work (connection_setConnection_self h.isOpen)

end Opens

/-- Meanwhile the path keeps the version of its store, and other paths keep their stores. -/
structure KeepsVersion (e : Engine) (path : String) (d : Engine) : Prop where
  others : ∀ other, other ≠ path → d.store other = e.store other
  version : (d.store path).version = (e.store path).version

theorem keepsVersion_of_stores {e d : Engine} (h : d.stores = e.stores) (path : String) :
    e.KeepsVersion path d :=
  ⟨fun other _ => store_congr h other, congrArg Store.version (store_congr h path)⟩

section

variable {e d : Engine} {id version tx : Nat} {path : String} {s : Store} (hs : e.draft? tx = some s)
  (he : e.Opens id path version) (hid : (e.transaction tx).connection = id)

include hs he hid

theorem IsUpgrading.opens (hd : e.IsUpgrading tx s d) : d.Opens id path version := by
  cases hd with
  | going scope hk => exact he.upgraded hid s _ scope
  | @ended k scope hk w hw =>
      have hupgraded := he.upgraded hid s k scope
      have hsame : ((e.upgraded tx s k scope).transaction tx).connection = id := by
        rw [transaction_upgraded hs]
        exact hid
      have hpath : (e.connection (e.transaction tx).connection).path = path := by
        rw [hid]
        exact he.path
      rw [hpath]
      rcases hw with rfl | rfl
      · exact hupgraded.ended hsame
      · exact (hupgraded.keep (s := { s with contents := k }) hk).ended hsame

omit hs in
theorem IsUpgrading.keepsVersion (hversion : s.version = (e.store path).version)
    (hd : e.IsUpgrading tx s d) : e.KeepsVersion path d := by
  cases hd with
  | going scope hk => exact keepsVersion_of_stores (by rfl) path
  | @ended k scope hk w hw =>
      have hpath : (e.connection (e.transaction tx).connection).path = path := by
        rw [hid]
        exact he.path
      rw [hpath]
      rcases hw with rfl | rfl
      · exact keepsVersion_of_stores (by rfl) path
      · refine ⟨fun other hother => store_keep_of_ne hother, ?_⟩
        exact (congrArg Store.version (store_keep_self (e.upgraded tx s k scope) path
          { s with contents := k })).trans hversion

end

end Engine

/-! ### The beginning and the end -/

namespace Action

variable {e d : Engine} {id version tx : Nat} {path : String} {s : Store}

theorem transaction_run (tx : Nat) (e : Engine) : transaction tx e = .ok (e.transaction tx) e := rfl

theorem ensureActive_of_isOver (h : e.IsOver tx) :
    ensureActive tx e = .error (.store .transactionInactive) e := by
  rw [ensureActive_run, h.2]
  rfl

/-- Nobody else writes while one connection is being opened. -/
theorem hasOtherWriter_eq_false (h : e.IsInStep (· = id)) (path : String) :
    hasOtherWriter e id path = false := by
  refine List.any_eq_false.2 fun other _ => ?_
  by_cases hother : other = id
  · simp [hother]
  · rw [h.idle other hother]
    simp

/-- Giving up an upgrade closes its connection, and keeps the stores as they are by then. -/
theorem abandon_run (hs : e.draft? tx = some s) (he : e.Opens id path version)
    (hid : (e.transaction tx).connection = id) (hstarted : (e.transaction tx).isStarted = true)
    (hd : e.IsUpgrading tx s d) (error : String) : ∃ d', abandon id tx error d = .ok () d' ∧
      d'.IsInStep (fun _ => False) ∧ d'.stores = d.stores := by
  have hopens := hd.opens hs he hid
  have habort : ∃ d', abort tx (some error) d = .ok () d' ∧ d'.Opens id path version ∧
      d'.stores = d.stores := by
    cases hd with
    | @going k scope hk =>
        have hunderWay := Engine.draft?_eq_some_iff.1 (Engine.draft?_upgraded hs k scope)
        have hsame : ((e.upgraded tx s k scope).transaction tx).connection = id := by
          rw [Engine.transaction_upgraded hs]
          exact hid
        have hnone : ((e.upgraded tx s k scope).connection
            ((e.upgraded tx s k scope).transaction tx).connection).listeners = [] := by
          rw [hsame]
          exact hopens.unheard
        exact ⟨_, abort_of_unheard hunderWay hnone _, hopens.ended hsame, rfl⟩
    | @ended k scope hk w hw =>
        have hover := Engine.isOver_keepWork_ended hs hstarted k scope
          (e.connection (e.transaction tx).connection).path w
        refine ⟨_, ?_, hopens, rfl⟩
        unfold abort
        rw [bind_of_ok (transaction_run _ _), hover.2]
        rfl
  obtain ⟨d', habort, hopens', hstores⟩ := habort
  refine ⟨d'.closed id, ?_, hopens'.inStep.closed hopens'.isOpen, hstores⟩
  unfold abandon
  rw [bind_of_ok habort]
  rfl

/-- How an upgrade of a path ends: with the new version and a connection in step with it, or with the
failure of its callback or because that has ended the transaction, and then the version stays. -/
structure Ends (e : Engine) (id : Nat) (path : String) (version : Nat) (result : Except Failure Unit)
    (r : Except Failure Nat) (d : Engine) : Prop where
  inStep : d.IsInStep fun _ => False
  others : ∀ other, other ≠ path → d.store other = e.store other
  outcome : r = .ok id ∧ result = .ok () ∧ (d.store path).version = version ∨
    (d.store path).version = (e.store path).version ∧ ∃ f, r = .error f ∧
      (result = .error f ∨ result = .ok () ∧ f = .store .transactionInactive)

/-- An upgrade whose transaction still has its draft is committed with the new version. -/
theorem conclude_run_of_draft (hs : e.draft? tx = some s) (id old new : Nat) :
    Opening.conclude (.upgrade id tx old new) (.ok ()) e =
      .ok id ((e.committed tx { s with version := new }).joined id) := by
  have hset : attempt (do
      ofExcept (.ok ())
      write tx fun s => { s with version := new }) e =
        .ok (.ok ()) (e.redraft tx { s with version := new }) :=
    attempt_of_ending (write_of_draft hs _)
  have hcommit := commit_of_draft (Engine.draft?_redraft hs { s with version := new })
  rw [Engine.committed_redraft hs] at hcommit
  unfold Opening.conclude
  exact (bind_of_ok hset _).trans (bind_of_ok hcommit _)

section Conclusion

variable (hs : e.draft? tx = some s) (he : e.Opens id path version)
  (hid : (e.transaction tx).connection = id)

include hs he hid

/-- An upgrade whose version cannot be set is given up. -/
theorem conclude_run_of_error (hstarted : (e.transaction tx).isStarted = true)
    (hversion : s.version = (e.store path).version) (hd : e.IsUpgrading tx s d) (old : Nat)
    {result : Except Failure Unit} {f : Failure}
    (hattempt : attempt (do
      ofExcept result
      write tx fun s => { s with version := version }) d = .ok (.error f) d)
    (hf : result = .error f ∨ result = .ok () ∧ f = .store .transactionInactive) :
    ∃ d', Opening.conclude (.upgrade id tx old version) result d = .error f d' ∧
      Ends e id path version result (.error f) d' := by
  obtain ⟨d', habandon, hstep, hstores⟩ := abandon_run hs he hid hstarted hd f.className
  have hkeeps := hd.keepsVersion he hid hversion
  have hkept := Engine.keepsVersion_of_stores hstores path
  refine ⟨d', ?_, hstep, fun other hother => ?_, .inr ⟨?_, f, rfl, hf⟩⟩
  · unfold Opening.conclude
    exact (bind_of_ok hattempt _).trans (bind_of_ok habandon _)
  · exact (hkept.others other hother).trans (hkeeps.others other hother)
  · exact hkept.version.trans hkeeps.version

/-- An upgrade that still goes on is committed with the new version. -/
theorem conclude_run_of_ok {k : Contents} (hk : k.IsOrdered) (scope : List String) (old : Nat) :
    ∃ d', Opening.conclude (.upgrade id tx old version) (.ok ()) (e.upgraded tx s k scope) = .ok id d' ∧
      Ends e id path version (.ok ()) (.ok id) d' := by
  let kept := (e.upgraded tx s k scope).keep path ⟨version, k⟩
  have hopens : (e.upgraded tx s k scope).Opens id path version := he.upgraded hid s k scope
  have hsame : ((e.upgraded tx s k scope).transaction tx).connection = id := by
    rw [Engine.transaction_upgraded hs]
    exact hid
  have hconclude := conclude_run_of_draft (Engine.draft?_upgraded hs k scope) id old version
  rw [Engine.committed, hsame, hopens.path] at hconclude
  have hkept : kept.Opens id path version := hopens.keep (s := ⟨version, k⟩) hk
  have hended : (kept.ended tx).Opens id path version := hkept.ended hsame
  have hstore : kept.store path = ⟨version, k⟩ := Engine.store_keep_self _ path ⟨version, k⟩
  refine ⟨(kept.ended tx).joined id, hconclude,
    hended.inStep.joined hended.isOpen ?_ (hkept.work_ended hsame),
    fun other hother => Engine.store_keep_of_ne hother, .inl ⟨rfl, rfl, ?_⟩⟩
  · rw [hended.version, hended.path]
    exact (congrArg Store.version hstore).symm
  · exact congrArg Store.version hstore

/-- However a callback has gone on, the upgrade comes to an end. -/
theorem conclude_upgrade_run (hstarted : (e.transaction tx).isStarted = true)
    (hversion : s.version = (e.store path).version) (hd : e.IsUpgrading tx s d) (old : Nat)
    (result : Except Failure Unit) :
    ∃ r d', Opening.conclude (.upgrade id tx old version) result d = ending r d' ∧
      Ends e id path version result r d' := by
  cases result with
  | error f =>
      obtain ⟨d', hconclude, hends⟩ :=
        conclude_run_of_error hs he hid hstarted hversion hd old rfl (.inl rfl)
      exact ⟨.error f, d', hconclude, hends⟩
  | ok u =>
      cases hd with
      | @going k scope hk =>
          obtain ⟨d', hconclude, hends⟩ := conclude_run_of_ok hs he hid hk scope old
          exact ⟨.ok id, d', hconclude, hends⟩
      | @ended k scope hk w hw =>
          -- the callback has ended the transaction, so that the version cannot be set
          have hover := Engine.isOver_keepWork_ended hs hstarted k scope
            (e.connection (e.transaction tx).connection).path w
          have hattempt : attempt (do
              ofExcept (.ok u)
              write tx fun s => { s with version := version })
              (((e.upgraded tx s k scope).keepWork _ w).ended tx) =
                .ok (.error (.store .transactionInactive)) _ :=
            attempt_of_ending (bind_of_error (ensureActive_of_isOver hover) _)
          obtain ⟨d', hconclude, hends⟩ := conclude_run_of_error hs he hid hstarted hversion
            (.ended scope hk hw) old hattempt (.inr ⟨rfl, rfl⟩)
          exact ⟨.error _, d', hconclude, hends⟩

end Conclusion

end Action
end RecordStore
