import RecordStore.Proofs.Session.Reach

/-!
Openings that fail. Whether the version is refused, others hold the store open, or its schema or its upgrade
fails: sessions that were open go on as if nothing had happened. But a connection that was shared already is
closed for all that share it when the name of one of its collections is taken.
-/

namespace RecordStore

open Effect

namespace Hub

variable {F : Factory → Prop} {A : Nat → Prop} {h g : Hub}

/-- Sessions on some connections are open still, and answer as they would have. -/
structure GoesOn (F : Factory → Prop) (A : Nat → Prop) (h g : Hub) : Prop extends AnswersAlike F A h g where
  isOpen : ∀ id, A id → g.isClosed id = false

theorem Mirrors.goesOn (hM : h.Mirrors A g) (hA : ∀ id, A id → h.isClosed id = false) : h.GoesOn F A g where
  toAnswersAlike := hM.answersAlike
  isOpen id hid := (congrArg SharedConnection.isClosed (hM.connection id hid)).trans (hA id hid)

end Hub

open Hub

namespace Factory

variable {F : Factory → Prop} {f : Factory} {h : Hub}

/-- A connection that an opening found in the registry, and has closed since the name of a collection is
taken. -/
def HasClosed (f : Factory) (name : String) (version : Value) (h : Hub) (e : Failure) (id : Nat) : Prop :=
  (∃ taken, e = .nameCollision taken) ∧
    ((h.registry f.registry).get h.isClosed ⟨name, version⟩).1 = some id

/-- A request for a session that fails lets the others go on. -/
theorem Ends.goesOn {name : String} {version : Value} {e : Failure} {g : Hub}
    (hends : f.Ends F name version h (.error e) g) (hs : h.IsSound F) :
    h.GoesOn F (fun id => h.isClosed id = false ∧ ¬f.HasClosed name version h e id) g := by
  cases hends with
  | failed hg => exact ((hg.mirrors hs).mono fun _ hid => hid.1).goesOn fun _ hid => hid.1
  | @collided taken id _ horigin _ hM =>
      refine (hM.mono ?_).goesOn fun _ hid => hid.1
      rintro other ⟨hopen, hspared⟩
      refine ⟨hopen, ?_⟩
      rintro rfl
      rcases horigin with hnew | hfound
      · -- a connection that was only just made was nobody's
        exact absurd (lt_of_isClosed_eq_false hopen) (Nat.not_lt_of_le hnew)
      · exact hspared ⟨⟨taken, rfl⟩, hfound⟩

/-- Whatever an opening that fails has done, when it was asked for and when its turn came, the sessions that
were open then go on, but for those whose connection was found in the registry and closed since the name of
a collection is taken. -/
theorem goesOn_of_openSession_error (hreached : LeadsTo F initial h) (hf : F f) (name : String) (version : Value)
    (source : SchemaSource) (proxies : Bool) :
    (∀ e g, (f.openSession name version source proxies).enter h = .error e g →
      h.GoesOn F (fun id => h.isClosed id = false ∧ ¬f.HasClosed name version h e id) g) ∧
    ∀ job g, (f.openSession name version source proxies).enter h = .ok (.waiting job) g →
      h.GoesOn F (fun id => h.isClosed id = false) g ∧ ∀ k e l, LeadsTo F g k → job k = .error e l →
        k.GoesOn F (fun id => k.isClosed id = false ∧ ¬f.HasClosed name version k e id) l := by
  have hs := (hreached.follows (isSound_initial F)).sound
  constructor
  · intro e g herror
    exact (ends_of_openSession_enter (r := .error e) hs hf herror).goesOn hs
  · intro job g hwaiting
    obtain ⟨hg, hjob⟩ := spares_of_openSession_enter hs hf hwaiting
    refine ⟨(hg.mirrors hs).goesOn fun _ hid => hid, fun k e l hk herror => ?_⟩
    -- until its turn comes, the hub goes on soundly
    have hsound := (hk.follows hg.sound).sound
    exact (hjob (r := .error e) hsound herror).goesOn hsound

end Factory

/-- A factory with a registry of its own. -/
def deskFactory : Factory := ⟨⟨"desk", 5000, .wal, .normal⟩, 0⟩

/-- A store with a collection whose name is taken, opened without members for its collections. -/
def drawerRequest : Request :=
  .openSession deskFactory "drawer" (.int 1) (.value (.dict [(.text "close", .dict [])])) false

def lampRequest : Request :=
  .openSession deskFactory "lamp" (.int 1) (.value (.dict [(.text "bulbs", .dict [])])) true

/-- Both stores are open. -/
def deskHub : Hub :=
  lampRequest.make.run.after (drawerRequest.make.run.after (Task.makeRegistry.after initial))

theorem leadsTo_deskHub : LeadsTo (· = deskFactory) initial deskHub := by
  have hempty : LeadsTo (· = deskFactory) initial (Task.makeRegistry.after initial) := (LeadsTo.refl _).makeRegistry
  exact (hempty.run (.request (r := drawerRequest) rfl)).run (.request (r := lampRequest) rfl)

/-- What is asked for the store again fails, since its session is to have a member for the collection. -/
theorem exists_error_deskHub : ∃ e g,
    (deskFactory.openSession "drawer" (.int 1) (.value .null) true).enter deskHub = .error e g :=
  exists_error_of_result? (Option.isNone_iff_eq_none.1 (by decide +kernel))

theorem goesOn_of_openSession_error_desk : ∃ e g,
    (deskFactory.openSession "drawer" (.int 1) (.value .null) true).enter deskHub = .error e g ∧
      deskHub.isClosed 1 = false ∧ g.isClosed 1 = false := by
  obtain ⟨e, g, herror⟩ := exists_error_deskHub
  have hgoesOn := (Factory.goesOn_of_openSession_error leadsTo_deskHub rfl "drawer" (.int 1) (.value .null)
    true).1 e g herror
  have hopen : deskHub.isClosed 1 = false := by decide +kernel
  refine ⟨e, g, herror, hopen, hgoesOn.isOpen 1 ⟨hopen, fun hclosed => ?_⟩⟩
  have hfound : ((deskHub.registry 0).get deskHub.isClosed ⟨"drawer", .int 1⟩).1 = some 0 := by decide +kernel
  cases hfound.symm.trans hclosed.2

/-- The failure closes the connection that others share. -/
theorem exists_closed_of_openSession_error : ∃ e g, LeadsTo (· = deskFactory) initial deskHub ∧
    (deskFactory.openSession "drawer" (.int 1) (.value .null) true).enter deskHub = .error e g ∧
      deskHub.isClosed 0 = false ∧ g.isClosed 0 = true := by
  obtain ⟨e, g, herror⟩ := exists_error_deskHub
  refine ⟨e, g, leadsTo_deskHub, herror, by decide +kernel, ?_⟩
  have hclosed : ((deskFactory.openSession "drawer" (.int 1) (.value .null) true).enter.after deskHub).isClosed 0 =
      true := by decide +kernel
  rw [after_of_error herror] at hclosed
  exact hclosed

end RecordStore
