import RecordStore.Proofs.Session.Requests

/-!
What may come of a hub. Registries are made, requests are made of factories and calls of sessions, and each
has its turn later than it was made, whatever came about in between; a request that was held up may be taken
up again. All of this keeps the hub sound.
-/

namespace RecordStore

open Effect

namespace Hub

variable {F : Factory → Prop} {h g k : Hub}

/-- What may be asked of a hub: a request of one of the factories, or a call of a session on a connection
that was made. -/
inductive Offers (F : Factory → Prop) (h : Hub) : {α : Type} → Operation Hub α → Prop
  | request {r : Request} (hr : F r.factory) : Offers F h r.make
  | call {s : Session} (hmade : s.connection < h.connections.length) (c : Session.Call) : Offers F h (c.on s)

/-- A hub leads to another by what is asked of it, and by the jobs that are left of what was asked. -/
inductive LeadsTo (F : Factory → Prop) : Hub → Hub → Prop
  | refl (h : Hub) : LeadsTo F h h
  | makeRegistry {h g : Hub} (hg : LeadsTo F h g) : LeadsTo F h (Task.makeRegistry.after g)
  | enter {h g : Hub} {α : Type} {o : Operation Hub α} (hg : LeadsTo F h g) (ho : Offers F g o) :
    LeadsTo F h (o.enter.after g)
  | turn {h g g' k : Hub} {α : Type} {o : Operation Hub α} {job : Task α} (hg : LeadsTo F h g)
    (ho : Offers F g o) (hrun : o.enter g = .ok (.waiting job) g') (hk : LeadsTo F g' k) :
    LeadsTo F h (job.after k)
  | takeUp {h g : Hub} (hg : LeadsTo F h g) (mark : String) : LeadsTo F h ((Task.takeUp mark).after g)

/-- What is asked may have its turn at once. -/
theorem LeadsTo.run (hg : LeadsTo F h g) {α : Type} {o : Operation Hub α} (ho : Offers F g o) :
    LeadsTo F h (o.run.after g) := by
  have henter := hg.enter ho
  unfold Operation.run
  cases hrun : o.enter g with
  | error e k =>
      rw [after_of_error hrun] at henter
      rw [after_bind_of_error hrun]
      exact henter
  | ok t k =>
      rw [after_of_ok hrun] at henter
      rw [after_bind_of_ok hrun]
      cases t with
      | finished x => exact henter
      | waiting job => exact hg.turn ho hrun (.refl k)

theorem isSound_initial (F : Factory → Prop) : initial.IsSound F where
  atRest := ⟨nofun, fun _ => rfl, fun _ => nofun⟩
  inEngine := nofun
  apart := nofun
  live := nofun
  entries := nofun
  retries := nofun

end Hub

open Hub

/-! ### Requests -/

section Requests

variable {F : Factory → Prop} {h g : Hub}

theorem Factory.isSteadyAt_openSession (hs : h.IsSound F) {f : Factory} (hf : F f) (name : String)
    (version : Value) (source : SchemaSource) (proxies : Bool) :
    (f.openSession name version source proxies).IsSteadyAt F (Follows F) h := by
  constructor
  · cases hrun : (f.openSession name version source proxies).enter h with
    | error e g =>
        rw [after_of_error hrun]
        exact (f.ends_of_openSession_enter (r := .error e) hs hf hrun).follows
    | ok t g =>
        rw [after_of_ok hrun]
        cases t with
        | finished s => exact (f.ends_of_openSession_enter (r := .ok s) hs hf hrun).follows
        | waiting job => exact (f.spares_of_openSession_enter hs hf hrun).1.toFollows
  · intro g k job hrun hk
    obtain ⟨r, hdone⟩ := exists_ending job k
    exact ((f.spares_of_openSession_enter hs hf hrun).2 hk.sound hdone).follows

theorem Factory.isSteadyAt_deleteStore (hs : h.IsSound F) {f : Factory} (hf : F f) (name : String) :
    (f.deleteStore name).IsSteadyAt F (Follows F) h := by
  rcases f.deleteStore_course h hf name with ⟨e, hrun⟩ | ⟨job, hrun, hjob⟩
  · refine ⟨?_, fun hwaiting => ?_⟩
    · rw [after_of_error hrun]
      exact follows_self hs
    · cases hrun.symm.trans hwaiting
  · refine ⟨?_, fun {_ k _} hwaiting hk => ?_⟩
    · rw [after_of_ok hrun]
      exact follows_self hs
    · cases hrun.symm.trans hwaiting
      exact (hjob k hk.sound).toFollows

/-- A request lets the hub go on, when it is made and when its turn comes. -/
theorem Request.isSteadyAt_make (hs : h.IsSound F) {r : Request} (hr : F r.factory) :
    r.make.IsSteadyAt F (Follows F) h := by
  cases r with
  | openSession f name version source proxies =>
      exact (f.isSteadyAt_openSession hs hr name version source proxies).andThen_pure Reply.session
  | deleteStore f name => exact (f.isSteadyAt_deleteStore hs hr name).andThen_pure Reply.version

/-- Whatever is asked lets the hub go on. -/
theorem Hub.Offers.isSteadyAt {α : Type} {o : Operation Hub α} (ho : h.Offers F o) (hs : h.IsSound F) :
    o.IsSteadyAt F (Follows F) h := by
  cases ho with
  | request hr => exact Request.isSteadyAt_make hs hr
  | @call s hmade c =>
      have hsteady := s.isSteadyAt_on hs hmade c
      exact ⟨hsteady.enter.toFollows, fun hrun hk => (hsteady.turn hrun hk).toFollows⟩

/-- A request that is taken up again notes how it ended this time. -/
theorem Task.follows_takeUp (hs : h.IsSound F) (mark : String) : Follows F h ((takeUp mark).after h) := by
  have hhub : Task.hub h = .ok h h := rfl
  unfold takeUp
  rw [after_bind_of_ok hhub]
  cases hretry : h.retries[mark.toNat?.getD 0]? with
  | none => exact follows_self hs
  | some r =>
      have hr := hs.retries r (List.mem_of_getElem? hretry)
      have hrun := (Request.isSteadyAt_make hs hr).run
      obtain ⟨outcome, hdone⟩ := exists_ending r.request.make.run h
      rw [after_bind_of_ok (attempt_of_ending hdone)]
      refine hrun.withRetries fun retry hmem => ?_
      rcases List.mem_or_eq_of_mem_set hmem with hwas | rfl
      · exact hrun.sound.retries retry hwas
      · exact hr

theorem Hub.follows_makeRegistry (hs : h.IsSound F) : Follows F h (Task.makeRegistry.after h) := by
  have hregistry (registry : Nat) : Hub.registry { h with registries := h.registries ++ [Registry.empty] }
      registry = h.registry registry := by
    unfold Hub.registry
    rw [List.getElem?_append]
    split
    · rfl
    · next hge =>
      -- what is not there counts as an empty registry anyhow
      rw [List.getElem?_eq_none (Nat.le_of_not_lt hge)]
      cases registry - h.registries.length with
      | zero => rfl
      | succ n => rfl
  refine ⟨⟨hs.atRest, hs.inEngine, hs.apart, hs.live, fun registry entry hentry => ?_, hs.retries⟩,
    ⟨Nat.le_refl _, fun _ _ => rfl, fun _ _ => id, Nat.le_refl _, fun _ _ => rfl⟩⟩
  have hwas : entry ∈ (h.registry registry).entries := (hregistry registry) ▸ hentry
  exact hs.entries registry entry hwas

/-- What a sound hub leads to is sound, and has all that was made. -/
theorem Hub.LeadsTo.follows (hg : LeadsTo F h g) (hs : h.IsSound F) : Follows F h g := by
  induction hg with
  | refl h => exact follows_self hs
  | makeRegistry _ ih => exact (ih hs).trans (follows_makeRegistry (ih hs).sound)
  | enter _ ho ih => exact (ih hs).trans (ho.isSteadyAt (ih hs).sound).enter
  | turn _ ho hrun _ ih ih' =>
      -- between the two the hub may have gone on in any way, which the second hypothesis covers
      have hsteady := ho.isSteadyAt (ih hs).sound
      have henter := hsteady.enter
      rw [after_of_ok hrun] at henter
      have hk := ih' henter.sound
      exact (ih hs).trans (henter.trans (hk.trans (hsteady.turn hrun hk)))
  | takeUp _ mark ih => exact (ih hs).trans (Task.follows_takeUp (ih hs).sound mark)

end Requests

/-! ### Hubs that sessions cannot tell apart -/

namespace Hub

variable {F : Factory → Prop} {A : Nat → Prop} {h g : Hub}

/-- Sessions on some connections answer the same in two hubs, whatever is asked of them, one thing after
another or at the same time; and so do jobs that are left of what was asked of them before. -/
structure AnswersAlike (F : Factory → Prop) (A : Nat → Prop) (h g : Hub) : Prop where
  answers : ∀ groups : List (List (Session × Session.Call)),
    (∀ group ∈ groups, ∀ asked ∈ group, A asked.1.connection) →
      (Session.converse groups).result? g = (Session.converse groups).result? h
  jobs : ∀ (s : Session) (c : Session.Call) (before asked : Hub) (job : Task Value), A s.connection →
    LeadsTo F initial before → s.connection < before.connections.length →
      (c.on s).enter before = .ok (.waiting job) asked → job.result? g = job.result? h

theorem Mirrors.answersAlike (hM : h.Mirrors A g) : h.AnswersAlike F A g where
  answers _ hgroups := (agree_converse hgroups).result?_eq hM
  jobs s c before asked job hs hreached hmade hrun := by
    have hsound := (hreached.follows (isSound_initial F)).sound
    have hkept := isKeptByClosing_mirrors hs
    have hboth := Session.respects_on (isKeptOn_proceeds hsound hmade) hkept.toIsKeptOn c (fun _ => hkept)
      before before ⟨rfl, proceeds_self hsound _⟩
    cases hboth with
    | error ha _ _ => cases hrun.symm.trans ha
    | ok ha hb hturn _ =>
        cases hrun.symm.trans ha
        cases hrun.symm.trans hb
        cases hturn with
        | waiting hjob => exact hjob.result?_eq hM

end Hub
end RecordStore
