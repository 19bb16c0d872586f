import RecordStore.Proofs.Engine.Annals
import RecordStore.Proofs.Engine.Registry

/-!
Properties of all contents. A property of contents that empty ones have and that every change keeps is
had, in every state that calls lead to, by the contents of each store that is kept and of each that a
connection has under way.
-/

namespace RecordStore

open Effect

namespace Engine

/-- All contents have a property: those of the stores that are kept and of those under way. -/
structure AllContents (P : Contents → Prop) (e : Engine) : Prop where
  stores : ∀ path, P (e.store path).contents
  work : ∀ id, ∀ s ∈ (e.connection id).work.store?, P s.contents

variable {P : Contents → Prop} {e : Engine} {tx : Nat} {s : Store}

theorem allContents_initial (hempty : P .empty) : initial.AllContents P :=
  ⟨fun _ => hempty, fun _ => nofun⟩

namespace AllContents

theorem draft (h : e.AllContents P) (hs : e.draft? tx = some s) : P s.contents := by
  obtain ⟨_, _, hwork⟩ := draft?_eq_some_iff.1 hs
  exact h.work _ s (by rw [hwork]; rfl)

theorem setConnection (h : e.AllContents P) {id : Nat} {c : Connection}
    (hc : ∀ s ∈ c.work.store?, P s.contents) : (e.setConnection id c).AllContents P where
  stores := h.stores
  work other := by
    rcases connection_setConnection e id c other with heq | ⟨_, heq⟩
    · rw [heq]
      exact h.work other
    · rw [heq]
      exact hc

/-- A transaction that goes on with another draft. -/
theorem redraft_iff (h : e.AllContents P) (hs : e.draft? tx = some s) (s' : Store) :
    (e.redraft tx s').AllContents P ↔ P s'.contents := by
  constructor
  · intro hredraft
    have hself := connection_rework_self (draft?_eq_some_iff.1 hs) (.writing s')
    have hwork := hredraft.work (e.transaction tx).connection
    rw [redraft, hself] at hwork
    exact hwork s' rfl
  · exact fun hs' => h.setConnection (by rintro _ ⟨⟩; exact hs')

theorem rescope_iff (scope : List String) : (e.rescope tx scope).AllContents P ↔ e.AllContents P :=
  ⟨fun h => ⟨h.stores, h.work⟩, fun h => ⟨h.stores, h.work⟩⟩

theorem begun (h : e.AllContents P) (tx : Nat) : (e.begun tx).AllContents P := by
  have hconnection : (e.setConnection (e.transaction tx).connection
      { e.connection (e.transaction tx).connection with
        work := if (e.transaction tx).mode = .readonly then .reading none
          else .writing (e.store (e.connection (e.transaction tx).connection).path) }).AllContents P := by
    refine h.setConnection ?_
    dsimp only
    split
    · exact nofun
    · rintro _ ⟨⟩
      exact h.stores _
  exact ⟨hconnection.stores, hconnection.work⟩

theorem keep (h : e.AllContents P) (path : String) (hs : P s.contents) :
    (e.keep path s).AllContents P where
  stores other := by
    by_cases hother : other = path
    · rw [hother, store_keep_self]
      exact hs
    · rw [store_keep_of_ne hother]
      exact h.stores other
  work := h.work

theorem forget (hempty : P .empty) (h : e.AllContents P) (path : String) :
    (e.forget path).AllContents P where
  stores other := by
    rw [store_forget]
    split
    · exact hempty
    · exact h.stores other
  work := h.work

end AllContents

theorem isStable_allContents (P : Contents → Prop) : IsStable (AllContents P) where
  congr h hs hc _ := by
    refine ⟨fun path => ?_, fun id => ?_⟩
    · rw [store_congr hs]
      exact h.stores path
    · rw [connection_congr hc]
      exact h.work id
  connect {e path version} h := by
    refine ⟨h.stores, fun id => ?_⟩
    rcases connection_connected e path version id with heq | ⟨_, heq⟩
    · exact heq.symm ▸ h.work id
    · exact heq.symm ▸ nofun
  setConnection {e id c} h _ _ _ hwork := h.setConnection (hwork ▸ h.work id)
  observed {e id} h _ := h.setConnection (by rintro _ ⟨⟩; exact h.stores _)
  close h := h.setConnection nofun
  make h := ⟨h.stores, h.work⟩
  setTransaction h _ _ _ _ := ⟨h.stores, h.work⟩
  ended {e tx} h _ := AllContents.setConnection (e := e.setTransaction tx _) ⟨h.stores, h.work⟩ nofun

end Engine

namespace EngineCall

variable {P : Contents → Prop} {e : Engine} {c : EngineCall} {tx : Nat} {s : Store}

/-- A call that goes through no transaction changes no contents. -/
theorem allContents_run_of_not_through (hempty : P .empty) (hc : c.through? = none) :
    c.run.Keeps (Engine.AllContents P) := by
  have hP := Engine.isStable_allContents P
  have hnone {α : Type} {a : Action α} (ha : a.Keeps (Engine.AllContents P)) :
      (obtainsNone a).Keeps (Engine.AllContents P) := meets_obtainsNone ha fun _ _ he => he
  have hcommit (tx : Nat) : (Action.commit tx).Keeps (Engine.AllContents P) := by
    refine Action.meets_commit hP hP (fun _ he => he) (fun e draft he _ _ hw => ?_) fun _ he _ => he
    exact he.keep _ (he.work _ draft (by rw [hw]; rfl))
  by_cases hcalm : c.isCalm = true
  · exact (keeps_run_of_isCalm hP hcalm).keeps
  cases c with
  | beginOpen path version callback =>
      exact hnone (Action.keeps_beginOpen hP (fun _ tx he _ => he.begun tx) _ _ _)
  | conclude o result =>
      cases o with
      | current id => exact absurd rfl hcalm
      | upgrade id tx old new =>
          have hwrite : (Action.write tx fun s => { s with version := new }).Keeps
              (Engine.AllContents P) := by
            refine Action.meets_write (fun _ he => he) (fun e draft he _ hw => ?_) fun _ he _ => he
            refine he.setConnection ?_
            rintro _ ⟨⟩
            exact he.work _ draft (by rw [hw]; rfl)
          exact hnone (Action.meets_conclude_upgrade hP hP (fun _ he => he) hwrite fun _ => hcommit tx)
  | deleteStore path callback =>
      exact hnone (Action.meets_deleteStore hP fun _ he => he.forget hempty path)
  | begin tx =>
      exact hnone (Action.meets_begin hP (fun _ he => he) fun _ he _ => he.begun tx)
  | commit tx => exact hnone (hcommit tx)
  | close _ | addListener _ _ _ | removeListener _ _ _ | openTransaction _ _ _ | abort _ _ =>
      exact absurd rfl hcalm
  | _ => cases hc

/-- A call through a transaction with a draft changes no other contents than the draft's. -/
theorem allContents_run_iff_of_draft (he : e.IsReachable) (h : e.AllContents P)
    (hc : c.through? = some tx) (hs : e.draft? tx = some s) : (c.run.after e).AllContents P ↔
      P (s.contents.changed (c.change? (e.transaction tx).mode s.contents)) := by
  have hmode := (Engine.isOrderly_of_isReachable he).mode_ne_readonly hs
  obtain ⟨scope, hafter, _⟩ := (Effect.Meets.after ((meets_run_of_draft hc hs hmode).imp
    (fun _ hd => hd) (fun _ _ hd => hd.1) fun _ hd => hd) rfl).eq
  rw [hafter, Engine.AllContents.rescope_iff, Engine.drafted, h.redraft_iff hs]
  rfl

theorem allContents_run_of_no_draft (h : e.AllContents P) (hc : c.through? = some tx)
    (hs : e.draft? tx = none) : (c.run.after e).AllContents P :=
  ((keeps_run_of_no_draft hc (Engine.isStable_allContents P)).after ⟨h, hs⟩).1

end EngineCall

/-- What empty contents have and each change keeps, all contents have in every state that calls lead
to. -/
theorem Engine.allContents_of_isReachable {P : Contents → Prop} (hempty : P .empty)
    (hchange : ∀ s mode (c : EngineCall), P s → P (s.changed (c.change? mode s))) {e : Engine}
    (he : e.IsReachable) : e.AllContents P := by
  induction he with
  | initial => exact allContents_initial hempty
  | @next e c he ih =>
      cases hc : c.through? with
      | none => exact (EngineCall.allContents_run_of_not_through hempty hc).after ih
      | some tx =>
          cases hs : e.draft? tx with
          | none => exact EngineCall.allContents_run_of_no_draft ih hc hs
          | some s =>
              exact (EngineCall.allContents_run_iff_of_draft he ih hc hs).2
                (hchange _ _ c (ih.draft hs))

end RecordStore
