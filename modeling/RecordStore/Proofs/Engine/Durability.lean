import RecordStore.Proofs.Engine.Writers

/-!
What an upgrade makes durable. The version is set after the callback has returned, and committed together
with all that the callback has changed; a callback that fails leaves the store as it was, and so does one
that aborts its transaction. But the transaction that the callback works in can be committed by the
callback itself, and what it has changed by then lasts without the version.
-/

namespace RecordStore

open Effect

/-- A call stores nothing, unless it commits a certain transaction. -/
def EngineCall.StoresBy (tx : Nat) (c : EngineCall) : Prop := c.storesNothing = true ∨ c = .commit tx

namespace Engine

variable {e d : Engine} {id tx version : Nat} {path : String} {s : Store} {calls : List EngineCall}

/-- A transaction was begun to upgrade the store under a path to a version, on a connection of its own. -/
structure HasUpgrade (e : Engine) (id tx : Nat) (path : String) (version : Nat) : Prop where
  upgrade : e.IsUpgradeOf id tx
  made : e.IsMadeFor id path version
  orderly : e.IsOrderly

theorem HasUpgrade.run (h : e.HasUpgrade id tx path version) (c : EngineCall) :
    (c.run.after e).HasUpgrade id tx path version :=
  ⟨(isUpgradeOf_run c).after h.upgrade, (isMadeFor_run c).after h.made, c.isOrderly_run.after h.orderly⟩

theorem HasUpgrade.afterCalls (h : e.HasUpgrade id tx path version) (calls : List EngineCall) :
    (e.afterCalls calls).HasUpgrade id tx path version := by
  induction calls generalizing e with
  | nil => exact h
  | cons c rest ih => exact ih (h.run c)

/-- Among calls is a commit of a transaction that then has a certain draft. -/
def Commits (e : Engine) (calls : List EngineCall) (tx : Nat) (s : Store) : Prop :=
  ∃ before after, calls = before ++ .commit tx :: after ∧ (e.afterCalls before).draft? tx = some s

theorem IsOver.draft?_eq_none (h : e.IsOver tx) : e.draft? tx = none := by
  cases hs : e.draft? tx with
  | none => rfl
  | some s => exact absurd (draft?_eq_some_iff.1 hs).active (by simp [h.2])

theorem HasUpgrade.stores_committed (h : e.HasUpgrade id tx path version) (s : Store) :
    (e.committed tx s).stores = (e.keep path s).stores := by
  rw [← h.made.path, ← h.upgrade.connection]
  rfl

theorem afterCalls_append (e : Engine) (before after : List EngineCall) :
    e.afterCalls (before ++ after) = (e.afterCalls before).afterCalls after :=
  List.foldl_append

/-! ### Stores while a callback runs -/

/-- A call that stores nothing, or a commit without a draft. -/
theorem stores_run_of_storesBy {c : EngineCall} (hc : c.StoresBy tx)
    (hs : c = .commit tx → e.draft? tx = none) (horderly : e.IsOrderly) :
    (c.run.after e).stores = e.stores := by
  rcases hc with hc | rfl
  · exact ((EngineCall.keeps_run_of_storesNothing (isKeptByDrafting_stores (· = e.stores)) hc).after
      ⟨rfl, horderly⟩).1
  · have hcommit := Action.keeps_commit_of_no_draft (isStable_stores (· = e.stores)) tx
    exact Effect.Meets.after (EngineCall.meets_obtainsNone hcommit fun _ _ hd => hd) ⟨rfl, hs rfl⟩

/-- Once the transaction of a callback is over, nothing that the callback calls is stored. -/
theorem afterCalls_of_isOver (hcalls : ∀ c ∈ calls, c.StoresBy tx) (horderly : e.IsOrderly)
    (hover : e.IsOver tx) :
    (e.afterCalls calls).stores = e.stores ∧ (e.afterCalls calls).IsOver tx := by
  induction calls generalizing e with
  | nil => exact ⟨rfl, hover⟩
  | cons c rest ih =>
      obtain ⟨hc, hrest⟩ := List.forall_mem_cons.1 hcalls
      obtain ⟨hstores, hafter⟩ := ih hrest (c.isOrderly_run.after horderly) ((c.isOver_run tx).after hover)
      exact ⟨hstores.trans (stores_run_of_storesBy hc (fun _ => hover.draft?_eq_none) horderly), hafter⟩

section Callback

variable (h : e.HasUpgrade id tx path version)

include h

/-- The commit of a draft keeps it, and is the last call of the callback that stores anything. -/
theorem stores_commit_afterCalls (hcalls : ∀ c ∈ calls, c.StoresBy tx) (hs : e.draft? tx = some s) :
    (e.afterCalls (.commit tx :: calls)).stores = (e.keep path s).stores ∧
      (e.afterCalls (.commit tx :: calls)).IsOver tx := by
  have hunderWay := draft?_eq_some_iff.1 hs
  have hcommit : (EngineCall.commit tx).run.after e = e.committed tx s :=
    EngineCall.after_obtainsNone (r := .ok ()) (Action.commit_of_draft hs)
  have hover : (e.committed tx s).IsOver tx := by
    refine Action.isOver_ended (hunderWay.keepWork _ (.writing s)) ?_
    exact h.upgrade.started
  have horderly : (e.committed tx s).IsOrderly := hcommit ▸ (h.run (.commit tx)).orderly
  have hcons : e.afterCalls (.commit tx :: calls) = (e.committed tx s).afterCalls calls := by
    rw [← hcommit]
    rfl
  rw [hcons]
  obtain ⟨hstores, hover⟩ := afterCalls_of_isOver hcalls horderly hover
  exact ⟨hstores.trans (h.stores_committed s), hover⟩

/-- A callback stores nothing, or just the draft that it commits. -/
theorem stores_afterCalls (hcalls : ∀ c ∈ calls, c.StoresBy tx) :
    (e.afterCalls calls).stores = e.stores ∨ ∃ s, e.Commits calls tx s ∧
      (e.afterCalls calls).stores = (e.keep path s).stores ∧ (e.afterCalls calls).IsOver tx := by
  induction calls generalizing e with
  | nil => exact .inl rfl
  | cons c rest ih =>
      obtain ⟨hc, hrest⟩ := List.forall_mem_cons.1 hcalls
      by_cases hcommit : c = .commit tx ∧ (e.draft? tx).isSome
      · obtain ⟨rfl, hsome⟩ := hcommit
        obtain ⟨s, hs⟩ := Option.isSome_iff_exists.1 hsome
        obtain ⟨hstores, hover⟩ := stores_commit_afterCalls h hrest hs
        exact .inr ⟨s, ⟨[], rest, rfl, hs⟩, hstores, hover⟩
      · have hstores : (c.run.after e).stores = e.stores := by
          refine stores_run_of_storesBy hc (fun heq => ?_) h.orderly
          by_contra hsome
          exact hcommit ⟨heq, Option.isSome_iff_ne_none.2 hsome⟩
        rcases ih (h.run c) hrest with hsame | ⟨s, ⟨before, after, rfl, hs⟩, hkept, hover⟩
        · exact .inl (hsame.trans hstores)
        · refine .inr ⟨s, ⟨c :: before, after, rfl, hs⟩, hkept.trans ?_, hover⟩
          unfold keep
          rw [hstores]

/-- The draft that a callback commits is the only one. -/
theorem stores_afterCalls_of_commits (hcalls : ∀ c ∈ calls, c.StoresBy tx)
    (hcommits : e.Commits calls tx s) :
    (e.afterCalls calls).stores = (e.keep path s).stores ∧ (e.afterCalls calls).IsOver tx := by
  obtain ⟨before, after, rfl, hs⟩ := hcommits
  have hbefore : ∀ c ∈ before, c.StoresBy tx := fun c hc => hcalls c (List.mem_append_left _ hc)
  have hafter : ∀ c ∈ after, c.StoresBy tx := fun c hc =>
    hcalls c (List.mem_append_right _ (List.mem_cons_of_mem _ hc))
  have hstores : (e.afterCalls before).stores = e.stores := by
    rcases stores_afterCalls h hbefore with hsame | ⟨_, _, _, hover⟩
    · exact hsame
    · rw [hover.draft?_eq_none] at hs
      cases hs
  rw [afterCalls_append]
  obtain ⟨hkept, hover⟩ := stores_commit_afterCalls (h.afterCalls before) hafter hs
  refine ⟨hkept.trans ?_, hover⟩
  unfold keep
  rw [hstores]

end Callback

end Engine

/-! ### What an opening makes durable -/

namespace Action

/-- The contents of stores change by an opening only if it succeeds, and then the store that is opened has
the version that was asked for. -/
def LastsWithVersion (e : Engine) (path : String) (version : Value) (callback : Option String)
    (upgrade : Nat → Nat → Nat → Action Unit) : Prop :=
  ∀ r d, openStore path version callback upgrade e = ending r d →
    (∃ other, (d.store other).contents ≠ (e.store other).contents) →
      (∃ id, r = .ok id) ∧ version = .int (d.store path).version

/-- The callback of an opening commits other contents than the store had. -/
def CommitsChange (e : Engine) (path : String) (version : Value) (callback : Option String)
    (calls : Nat → Nat → Nat → List EngineCall) : Prop :=
  ∃ id tx old new d s, beginOpen path version callback e = .ok (.upgrade id tx old new) d ∧
    d.Commits (calls tx old new) tx s ∧ s.contents ≠ (e.store path).contents

variable {e d : Engine} {path : String} {version : Value} {callback : Option String} {id tx old new : Nat}
  {calls : Nat → Nat → Nat → List EngineCall}

/-- When an upgrade has begun nothing is stored yet. -/
theorem hasUpgrade_of_ok (he : e.IsAttained)
    (hbegin : beginOpen path version callback e = .ok (.upgrade id tx old new) d) :
    d.HasUpgrade id tx path new ∧ d.stores = e.stores ∧ version = .int new := by
  have hafter : (EngineCall.beginOpen path version callback).run.after e = d :=
    EngineCall.after_obtainsNone (r := .ok _) hbegin
  have horderly : d.IsOrderly :=
    hafter ▸ Engine.isOrderly_of_isReachable (he.isReachable.next (.beginOpen path version callback))
  cases begins_of_ok he.holdsMade hbegin with
  | upgrade _ _ _ =>
      exact ⟨⟨isUpgradeOf_upgradeBegun e path new, isMadeFor_upgradeBegun e path new, horderly⟩, rfl, rfl⟩

/-- Without an upgrade nothing is stored. -/
theorem stores_openStore_of_not_upgrade {upgrade : Nat → Nat → Nat → Action Unit} {r : Except Failure Nat}
    (hbegin : ∀ id tx old new d, beginOpen path version callback e ≠ .ok (.upgrade id tx old new) d)
    (h : openStore path version callback upgrade e = ending r d) : d.stores = e.stores := by
  have hkeeps : (beginOpen path version callback).Keeps fun b => b.stores = e.stores :=
    keeps_beginOpen (Engine.isStable_stores (· = e.stores)) (fun _ _ hb _ => hb) path version callback
  unfold openStore at h
  cases hopen : beginOpen path version callback e with
  | error f b =>
      rw [bind_of_error hopen] at h
      obtain ⟨_, rfl⟩ := ending_eq_error_iff.1 h.symm
      exact hkeeps.of_error rfl hopen
  | ok o b =>
      cases o with
      | upgrade id tx old new => exact absurd hopen (hbegin id tx old new b)
      | current id =>
          have hjoined : openStore path version callback upgrade e = .ok id (b.joined id) := by
            unfold openStore
            rw [bind_of_ok hopen]
            rfl
          obtain ⟨_, rfl⟩ := ending_eq_ok_iff.1 (h.symm.trans hjoined)
          exact (hkeeps.of_ok rfl hopen : b.stores = e.stores)

/-- The upgrade of an opening is concluded with its draft and the version, or nothing more is stored than
the callback has stored itself. -/
theorem openStore_ending_of_upgrade (calls : Nat → Nat → Nat → List EngineCall)
    (result : Nat → Nat → Nat → Except Failure Unit) (he : e.IsAttained)
    (hbegin : beginOpen path version callback e = .ok (.upgrade id tx old new) d) :
    (∃ s, (d.afterCalls (calls tx old new)).draft? tx = some s ∧ openStore path version callback
      (fun tx old new => EngineCall.body (calls tx old new) (result tx old new)) e =
        .ok id (((d.afterCalls (calls tx old new)).committed tx { s with version := new }).joined id)) ∨
    ∃ f d', openStore path version callback
      (fun tx old new => EngineCall.body (calls tx old new) (result tx old new)) e = .error f d' ∧
        d'.stores = (d.afterCalls (calls tx old new)).stores := by
  let g := d.afterCalls (calls tx old new)
  have hg : g.HasUpgrade id tx path new := (hasUpgrade_of_ok he hbegin).1.afterCalls _
  have habandon := keeps_abandon (Engine.isStable_stores (· = g.stores)) id tx
  have hbody := attempt_of_ending (EngineCall.body_run (calls tx old new) (result tx old new) d)
  have hopen : openStore path version callback
      (fun tx old new => EngineCall.body (calls tx old new) (result tx old new)) e =
        Opening.conclude (.upgrade id tx old new) (result tx old new) g := by
    unfold openStore
    rw [bind_of_ok hbegin]
    exact bind_of_ok hbody _
  rw [hopen]
  exact conclude_cases habandon rfl hg.orderly hg.upgrade.mode_ne_readonly

/-- A callback that makes a collection, gives its transaction up and tries to make another one. -/
def givingUp (tx _ _ : Nat) : List EngineCall :=
  [.createCollection tx (.text "drafts") .null (.bool false), .abort tx none,
    .createCollection tx (.text "letters") .null (.bool false)]

/-- A callback that makes a collection and commits its transaction. -/
def committing (tx _ _ : Nat) : List EngineCall :=
  [.createCollection tx (.text "letters") .null (.bool false), .commit tx]

end Action
end RecordStore
