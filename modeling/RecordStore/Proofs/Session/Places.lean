import RecordStore.Proofs.Session.FailedOpenings

/-!
Where sessions are connected to. A registry knows stores by their names and versions only, and not by where
they are kept. So as long as factories that share a registry keep each store at the same place, a session is
connected to where its factory keeps the store, for as long as there is anything of it, and has to do with no
other store; otherwise a factory may be given a session on the store of another one.
-/

namespace RecordStore

open Effect Hub

/-- Factories that share a registry keep each store at the same place. -/
def Factory.AgreeOnPlaces (F : Factory → Prop) : Prop :=
  ∀ f g, F f → F g → f.registry = g.registry → ∀ name, f.config.pathFor name = g.config.pathFor name

/-- From a hub on, a session is connected to a path: in every hub that may come of it the path is the same,
the session changes the store at no other path, when it is called and when the call has its turn, and what it
answers depends on no other store. -/
structure Session.IsBoundTo (F : Factory → Prop) (s : Session) (path : String) (h : Hub) : Prop where
  stays : ∀ g, LeadsTo F h g → g.path s.connection = path
  enters : ∀ g, LeadsTo F h g → ∀ (c : Session.Call) (other : String), other ≠ path →
    ((c.on s).enter.after g).engine.store other = g.engine.store other
  works : ∀ g, LeadsTo F h g → ∀ (c : Session.Call) (job : Task Value) (asked k : Hub),
    (c.on s).enter g = .ok (.waiting job) asked → LeadsTo F asked k → ∀ other, other ≠ path →
      (job.after k).engine.store other = k.engine.store other
  reads : ∀ g, LeadsTo F h g → ∀ stores : List (String × Store),
    Engine.store { g.engine with stores := stores } path = g.engine.store path →
      g.AnswersAlike F (· = s.connection) { g with engine := { g.engine with stores := stores } }

variable {F : Factory → Prop} {h g : Hub} {f : Factory} {s : Session} {name path : String} {version : Value}

/-- Other stores may be replaced, and a connection is mirrored all the same. -/
theorem Hub.mirrors_withStores (hs : h.IsSound F) {id : Nat} (hid : id < h.connections.length)
    {stores : List (String × Store)}
    (hsame : Engine.store { h.engine with stores := stores } (h.path id) = h.engine.store (h.path id)) :
    h.Mirrors (· = id) { h with engine := { h.engine with stores := stores } } where
  atRest := hs.atRest
  atRest' := hs.atRest.congr rfl rfl
  made other hother := hother ▸ hid
  made' other hother := hother ▸ hid
  connection _ _ := rfl
  engine other hother := by
    subst hother
    exact ⟨hs.inEngine other hid, hs.inEngine other hid, rfl, hsame, rfl⟩

theorem Session.isBoundTo_of_path (hs : h.IsSound F) (hmade : s.connection < h.connections.length)
    (hpath : h.path s.connection = path) : s.IsBoundTo F path h := by
  have hstays {g : Hub} (hg : LeadsTo F h g) : g.IsSound F ∧ s.connection < g.connections.length ∧
      g.path s.connection = path := by
    have hfollows := hg.follows hs
    exact ⟨hfollows.sound, Nat.lt_of_lt_of_le hmade hfollows.grows.made,
      (hfollows.grows.path_eq hs hmade).trans hpath⟩
  constructor
  · exact fun g hg => (hstays hg).2.2
  · intro g hg c other hother
    obtain ⟨hsound, hlt, hat⟩ := hstays hg
    exact (s.isSteadyAt_on hsound hlt c).enter.stores other (hat ▸ hother)
  · intro g hg c job asked k hrun hk other hother
    obtain ⟨hsound, hlt, hat⟩ := hstays hg
    have hsteady := s.isSteadyAt_on hsound hlt c
    have hasked := hsteady.enter
    rw [after_of_ok hrun] at hasked
    have hfollows := hk.follows hasked.sound
    refine (hsteady.turn hrun hfollows).stores other ?_
    rw [hfollows.grows.path_eq hasked.sound (Nat.lt_of_lt_of_le hlt hasked.grows.made),
      hasked.grows.path_eq hsound hlt, hat]
    exact hother
  · intro g hg stores hsame
    obtain ⟨hsound, hlt, hat⟩ := hstays hg
    exact (mirrors_withStores hsound hlt (by rw [hat]; exact hsame)).answersAlike

namespace Factory

/-- What an opening has come upon is where its factory keeps the store. -/
theorem Ends.isBoundTo (hF : AgreeOnPlaces F) (hf : F f) (hends : f.Ends F name version h (.ok s) g) :
    ∃ path, f.config.pathFor (.text name) = .ok path ∧ s.IsBoundTo F path g := by
  cases hends with
  | yielded hg =>
      obtain ⟨hmade, other, hother, hregistry, hpath⟩ := hg.placed
      refine ⟨g.path s.connection, ?_, Session.isBoundTo_of_path hg.spares.sound hmade rfl⟩
      rw [hF f other hf hother hregistry.symm]
      exact hpath

/-- As long as factories that share a registry agree on where stores are kept, every session that a factory
yields, at once or when the turn of its opening comes, is connected to where the factory keeps the store. -/
theorem isBoundTo_of_openSession_ok (hF : AgreeOnPlaces F) (hreached : LeadsTo F initial h) (hf : F f)
    (name : String) (version : Value) (source : SchemaSource) (proxies : Bool) :
    (∀ s g, (f.openSession name version source proxies).enter h = .ok (.finished s) g →
      ∃ path, f.config.pathFor (.text name) = .ok path ∧ s.IsBoundTo F path g) ∧
    ∀ job g, (f.openSession name version source proxies).enter h = .ok (.waiting job) g →
      ∀ k s l, LeadsTo F g k → job k = .ok s l →
        ∃ path, f.config.pathFor (.text name) = .ok path ∧ s.IsBoundTo F path l := by
  have hs := (hreached.follows (isSound_initial F)).sound
  constructor
  · intro s g hfinished
    exact (ends_of_openSession_enter (r := .ok s) hs hf hfinished).isBoundTo hF hf
  · intro job g hwaiting k s l hk hok
    obtain ⟨hg, hjob⟩ := spares_of_openSession_enter hs hf hwaiting
    exact (hjob (r := .ok s) (hk.follows hg.sound).sound hok).isBoundTo hF hf

end Factory

/-- A factory that keeps stores elsewhere, with a registry of its own. -/
def atticFactory : Factory := ⟨⟨"attic", 5000, .wal, .normal⟩, 1⟩

/-- There are two registries, and a store is open that was opened through the first. -/
def houseHub : Hub := lampRequest.make.run.after (Task.makeRegistry.after (Task.makeRegistry.after initial))

theorem leadsTo_houseHub (hF : F deskFactory) : LeadsTo F initial houseHub := by
  have hempty : LeadsTo F initial (Task.makeRegistry.after (Task.makeRegistry.after initial)) :=
    (LeadsTo.refl _).makeRegistry.makeRegistry
  exact hempty.run (.request (r := lampRequest) hF)

theorem agreeOnPlaces_desk_attic : Factory.AgreeOnPlaces fun f => f = deskFactory ∨ f = atticFactory := by
  rintro f g (rfl | rfl) (rfl | rfl) hregistry name
  · rfl
  · cases hregistry
  · cases hregistry
  · rfl

theorem isBoundTo_of_openSession_ok_attic : ∃ job g s l,
    (atticFactory.openSession "lamp" (.int 1) (.value .null) true).enter houseHub = .ok (.waiting job) g ∧
      job g = .ok s l ∧ s.IsBoundTo (fun f => f = deskFactory ∨ f = atticFactory) "attic/lamp.kvdb" l := by
  have hyields : (match (atticFactory.openSession "lamp" (.int 1) (.value .null) true).enter houseHub with
      | .ok (.waiting job) g => (job.result? g).isSome
      | _ => false) = true := by decide +kernel
  cases hrun : (atticFactory.openSession "lamp" (.int 1) (.value .null) true).enter houseHub with
  | error e g =>
      rw [hrun] at hyields
      cases hyields
  | ok t g =>
      rw [hrun] at hyields
      cases t with
      | finished s => cases hyields
      | waiting job =>
          obtain ⟨s, hs⟩ := Option.isSome_iff_exists.1 hyields
          obtain ⟨l, hok⟩ := exists_ok_of_result? hs
          obtain ⟨path, hpath, hbound⟩ := (Factory.isBoundTo_of_openSession_ok agreeOnPlaces_desk_attic
            (leadsTo_houseHub (.inl rfl)) (.inr rfl) "lamp" (.int 1) (.value .null) true).2 job g hrun g s l
              (.refl g) hok
          have hplace : atticFactory.config.pathFor (.text "lamp") = .ok "attic/lamp.kvdb" :=
            congrArg Except.ok (by decide +kernel)
          cases hplace.symm.trans hpath
          exact ⟨job, g, s, l, rfl, hok, hbound⟩

/-- A factory that keeps stores elsewhere, but shares the registry of another one. -/
def cellarFactory : Factory := ⟨⟨"cellar", 5000, .wal, .normal⟩, 0⟩

/-- It is given a session on a store of the other one. -/
theorem exists_session_bound_elsewhere : ∃ s g,
    LeadsTo (fun f => f = deskFactory ∨ f = cellarFactory) initial houseHub ∧
      (cellarFactory.openSession "lamp" (.int 1) (.value .null) true).enter houseHub = .ok (.finished s) g ∧
        cellarFactory.config.pathFor (.text "lamp") = .ok "cellar/lamp.kvdb" ∧
          g.path s.connection = "desk/lamp.kvdb" := by
  have hyields : (match (cellarFactory.openSession "lamp" (.int 1) (.value .null) true).enter houseHub with
      | .ok (.finished s) g => g.path s.connection == "desk/lamp.kvdb"
      | _ => false) = true := by decide +kernel
  cases hrun : (cellarFactory.openSession "lamp" (.int 1) (.value .null) true).enter houseHub with
  | error e g =>
      rw [hrun] at hyields
      cases hyields
  | ok t g =>
      rw [hrun] at hyields
      cases t with
      | waiting job => cases hyields
      | finished s =>
          exact ⟨s, g, leadsTo_houseHub (.inl rfl), rfl, congrArg Except.ok (by decide +kernel),
            beq_iff_eq.1 hyields⟩

end RecordStore
