import RecordStore.Proofs.Engine.Listeners

/-!
Who waits for a path. A callback that is left by a request that was refused waits as long as the path is
held open, by whomever, and is called by the close that ends this, in the order in which the callbacks
were left.
-/

namespace RecordStore

open Effect

/-- The label of the callback that a notice tells to be called. -/
def Notice.label? : Notice → Option String
  | .delivered _ _ => none
  | .unblocked label => some label

theorem Connection.labels_heard (c : Connection) (event : Event) :
    (c.heard event).filterMap Notice.label? = [] := by
  simp [heard, List.filterMap_map, Function.comp_def, Notice.label?]

theorem Connection.labels_heardOfChange (new : Option Nat) (cs : List Connection) :
    (heardOfChange new cs).filterMap Notice.label? = [] := by
  induction cs with
  | nil => rfl
  | cons c rest ih =>
      rw [heardOfChange, List.filterMap_append, labels_heard]
      split
      · rfl
      · exact ih

namespace Engine

/-- Some connection holds a path open. -/
def isHeld (e : Engine) (path : String) : Bool := !(e.liveAt path).isEmpty

/-- After those who hold a path open were told that its version is to change. -/
def warned (e : Engine) (path : String) (new : Option Nat) : Engine :=
  { e with notices := e.notices ++ Connection.heardOfChange new ((e.liveAt path).map e.connection) }

/-- Every callback that waits does so for a path that is held open. -/
def WaitsHeld (e : Engine) : Prop := ∀ w ∈ e.waiters, e.isHeld w.1 = true

/-- Whoever held a path open still does, the same callbacks wait, and none was called. -/
structure Undisturbed (e d : Engine) : Prop where
  made : e.connections.length ≤ d.connections.length
  path : ∀ id < e.connections.length, (d.connection id).path = (e.connection id).path
  live : ∀ id ∈ e.live, id ∈ d.live
  waiters : d.waiters = e.waiters
  told : ∃ told, d.notices = e.notices ++ told ∧ told.filterMap Notice.label? = []

variable {e d : Engine} {path : String}

theorem isHeld_iff : e.isHeld path = true ↔ e.liveAt path ≠ [] := by
  simp [isHeld]

theorem isHeld_of_mem {id : Nat} (hlive : id ∈ e.live) (hpath : (e.connection id).path = path) :
    e.isHeld path = true :=
  isHeld_iff.2 (List.ne_nil_of_mem (mem_liveAt_iff.2 ⟨hlive, hpath⟩))

theorem exists_of_isHeld (h : e.isHeld path = true) :
    ∃ id ∈ e.live, (e.connection id).path = path := by
  obtain ⟨id, hid⟩ := List.exists_mem_of_ne_nil _ (isHeld_iff.1 h)
  exact ⟨id, mem_liveAt_iff.1 hid⟩

namespace Undisturbed

theorem refl (e : Engine) : e.Undisturbed e :=
  ⟨Nat.le_refl _, fun _ _ => rfl, fun _ => id, rfl, [], (List.append_nil _).symm, rfl⟩

/-- Stores and transactions do not count. -/
theorem congr (h : e.Undisturbed d) {d' : Engine} (hc : d'.connections = d.connections)
    (hl : d'.live = d.live) (hw : d'.waiters = d.waiters) (hn : d'.notices = d.notices) :
    e.Undisturbed d' where
  made := hc ▸ h.made
  path id hid := (congrArg Connection.path (connection_congr hc id)).trans (h.path id hid)
  live id hid := hl ▸ h.live id hid
  waiters := hw.trans h.waiters
  told := hn ▸ h.told

theorem setConnection (h : e.Undisturbed d) (id : Nat) {c : Connection}
    (hc : c.path = (d.connection id).path) : e.Undisturbed (d.setConnection id c) where
  made := h.made.trans_eq List.length_set.symm
  path other hother :=
    (connection_setConnection_congr Connection.path hc other).trans (h.path other hother)
  live := h.live
  waiters := h.waiters
  told := h.told

theorem notices (h : e.Undisturbed d) {told : List Notice} (htold : told.filterMap Notice.label? = []) :
    e.Undisturbed { d with notices := d.notices ++ told } where
  made := h.made
  path := h.path
  live := h.live
  waiters := h.waiters
  told := by
    obtain ⟨before, hbefore, hnone⟩ := h.told
    refine ⟨before ++ told, ?_, ?_⟩
    · rw [hbefore, List.append_assoc]
    · rw [List.filterMap_append, hnone, htold]
      rfl

theorem connected (h : e.Undisturbed d) (path : String) (version : Nat) :
    e.Undisturbed (d.connected path version) where
  made := by
    rw [Engine.connected, List.length_append]
    exact Nat.le_add_right_of_le h.made
  path id hid := by
    rw [← h.path id hid]
    exact congrArg Connection.path (connection_append_of_lt (Nat.lt_of_lt_of_le hid h.made) _)
  live := h.live
  waiters := h.waiters
  told := h.told

theorem closed (h : e.Undisturbed d) (id : Nat) : e.Undisturbed (d.closed id) :=
  h.setConnection id (c := { d.connection id with isClosed := true, work := .idle }) rfl

theorem rework (h : e.Undisturbed d) (tx : Nat) (w : Work) : e.Undisturbed (d.rework tx w) :=
  h.setConnection _ (c := { d.connection (d.transaction tx).connection with work := w }) rfl

theorem joined (h : e.Undisturbed d) (id : Nat) : e.Undisturbed (d.joined id) :=
  have hnamed := h.setConnection id (c := { d.connection id with
    collectionNames := (d.store (d.connection id).path).contents.names }) rfl
  { hnamed with live := fun other hother => List.mem_append_left _ (h.live other hother) }

/-- A path that was held open still is. -/
theorem isHeld (h : e.Undisturbed d) (hmade : e.HoldsMade 0) (hheld : e.isHeld path = true) :
    d.isHeld path = true := by
  obtain ⟨id, hid, hpath⟩ := exists_of_isHeld hheld
  exact isHeld_of_mem (h.live id hid) ((h.path id (hmade.live id hid)).trans hpath)

end Undisturbed

theorem isKeptInReach_undisturbed (e : Engine) (tx : Nat) : IsKeptInReach tx e.Undisturbed where
  rework hd := hd.rework _ _
  transaction hd _ := hd.congr rfl rfl rfl rfl
  told hd := hd.notices rfl

end Engine

namespace Action

open Engine (Undisturbed isKeptInReach_undisturbed)

variable {e : Engine}

/-! ### What disturbs nobody -/

theorem undisturbed_make (id : Nat) (scope : List String) (mode : Mode) :
    (make id scope mode).Keeps e.Undisturbed := by
  refine ensures_bind ensures_get fun d hd => ?_
  exact keeps_bind (meets_set (hd.congr rfl rfl rfl rfl)) fun _ => keeps_pure _

theorem undisturbed_conclude (o : Opening) (result : Except Failure Unit) :
    (o.conclude result).Keeps e.Undisturbed := by
  have hjoin (id : Nat) : (finishOpen id).Keeps e.Undisturbed := fun d hd => hd.joined id
  exact keeps_conclude_in_reach (isKeptInReach_undisturbed e) (fun hd => hd.congr rfl rfl rfl rfl)
    (fun hd => hd.closed _) (hjoin _) result

theorem undisturbed_addListener (id : Nat) (event : Value) (fails : Bool) :
    (addListener id event fails).Keeps e.Undisturbed := by
  refine keeps_bind (keeps_eventType event) fun type => ensures_bind ensures_get fun d hd => ?_
  have hcounted : e.Undisturbed { d with listenerCount := d.listenerCount + 1 } :=
    hd.congr rfl rfl rfl rfl
  exact keeps_bind (meets_set (hcounted.setConnection id rfl)) fun _ => keeps_pure _

theorem undisturbed_removeListener (id : Nat) (event : Value) (serial : Nat) :
    (removeListener id event serial).Keeps e.Undisturbed :=
  keeps_bind (keeps_eventType event) fun _ => keeps_modify fun _ hd => hd.setConnection id rfl

end Action

/-! ### Calls -/

/-- An effect is refused as others hold a path open. -/
def Action.isBlocked {α : Type} (a : Action α) (e : Engine) : Bool :=
  match a e with
  | .error (.store (.blocked _ _ _)) _ => true
  | _ => false

namespace EngineCall

open Engine (Undisturbed isKeptInReach_undisturbed)

/-- The callback that comes with a call, and the path that it is for. -/
def callback? : EngineCall → Option (String × String)
  | beginOpen path _ callback | deleteStore path callback => callback.map fun label => (path, label)
  | _ => none

/-- The callback that a call leaves to wait: the one it came with, if it is refused as others hold the path
open. -/
def leaves (c : EngineCall) (e : Engine) : Option (String × String) :=
  if Action.isBlocked c.run e then c.callback? else none

variable {e : Engine} {c : EngineCall}

/-- A call disturbs nobody, but that the callback it leaves waits for a path that is held open. -/
def OnlyLeaves (c : EngineCall) (e : Engine) : Prop :=
  ∃ d, e.Undisturbed d ∧ c.run.after e = { d with waiters := d.waiters ++ (c.leaves e).toList } ∧
    ∀ w ∈ c.leaves e, e.isHeld w.1 = true

theorem onlyLeaves_of_undisturbed {d : Engine} (hleaves : c.leaves e = none) (hd : e.Undisturbed d)
    (hafter : c.run.after e = d) : c.OnlyLeaves e := by
  refine ⟨d, hd, ?_, ?_⟩
  · rw [hafter, hleaves, Option.toList_none, List.append_nil]
  · rw [hleaves]
    exact nofun

theorem onlyLeaves_of_keeps (hrun : c.run.Keeps e.Undisturbed) (hc : c.callback? = none) :
    c.OnlyLeaves e := by
  refine onlyLeaves_of_undisturbed ?_ (hrun.after (.refl e)) rfl
  rw [leaves, hc, ite_self]

section Ending

variable {α : Type} {a : Action α} {r : Except Failure α} {d : Engine} (ha : a e = ending r d)

include ha

theorem isBlocked_obtainsNone_iff : Action.isBlocked (obtainsNone a) e = true ↔
    ∃ path old new, r = .error (.store (.blocked path old new)) := by
  unfold Action.isBlocked obtainsNone
  cases r with
  | ok x =>
      rw [bind_of_ok ha]
      exact ⟨nofun, nofun⟩
  | error f =>
      rw [bind_of_error ha]
      constructor
      · intro h
        split at h
        · next heq =>
          cases heq
          exact ⟨_, _, _, rfl⟩
        · cases h
      · rintro ⟨path, old, new, hf⟩
        cases hf
        rfl

theorem onlyLeaves_of_ending (hc : c.run = obtainsNone a) (hd : e.Undisturbed d)
    (hr : ∀ path old new, r ≠ .error (.store (.blocked path old new))) : c.OnlyLeaves e := by
  refine onlyLeaves_of_undisturbed ?_ hd (hc ▸ after_obtainsNone ha)
  rw [leaves, hc, if_neg]
  rw [isBlocked_obtainsNone_iff ha]
  rintro ⟨path, old, new, h⟩
  exact hr path old new h

end Ending

/-- A request that is refused for others who hold the path leaves its callback, unless a listener fails.
What else it does is told by `f`. -/
theorem onlyLeaves_of_refusal {α : Type} {a : Action α} {path : String} {new : Option Nat}
    {callback : Option String} {f : Engine → Engine} (hc : c.run = obtainsNone a)
    (hcallback : c.callback? = callback.map fun label => (path, label)) (hheld : e.liveAt path ≠ [])
    (ha : a e = .error (e.refusal path new) (f (e.refused path new callback)))
    (hf : ∀ d, e.Undisturbed d → e.Undisturbed (f d))
    (hleave : ∀ d waiters, f { d with waiters := d.waiters ++ waiters } =
      { f d with waiters := (f d).waiters ++ waiters }) : c.OnlyLeaves e := by
  have hending : a e = ending (.error (e.refusal path new)) (f (e.refused path new callback)) := ha
  have htold : e.Undisturbed (e.warned path new) :=
    (Undisturbed.refl e).notices (Connection.labels_heardOfChange _ _)
  by_cases hfails : e.FailsAtChange path
  · refine onlyLeaves_of_ending hending hc (hf _ ?_) ?_
    · rw [Engine.refused, if_pos hfails, List.append_nil]
      exact htold
    · rw [Engine.refusal, if_pos hfails]
      intro _ _ _ h
      cases h
  · have hblocked : Action.isBlocked (obtainsNone a) e = true := by
      rw [isBlocked_obtainsNone_iff hending, Engine.refusal, if_neg hfails]
      exact ⟨_, _, _, rfl⟩
    have hleaves : c.leaves e = callback.map fun label => (path, label) := by
      rw [leaves, hc, if_pos hblocked, hcallback]
    have hlabels : callback.toList.map (fun label => (path, label)) = (c.leaves e).toList := by
      rw [hleaves]
      cases callback <;> rfl
    refine ⟨f (e.warned path new), hf _ htold, ?_, ?_⟩
    · rw [hc, after_obtainsNone hending, Engine.refused, if_neg hfails, hlabels]
      exact hleave (e.warned path new) _
    · rw [hleaves]
      intro w hw
      obtain ⟨label, _, rfl⟩ := Option.map_eq_some_iff.1 hw
      exact Engine.isHeld_iff.2 hheld

theorem onlyLeaves_beginOpen (he : e.HoldsMade 0) (path : String) (version : Value)
    (callback : Option String) : (beginOpen path version callback).OnlyLeaves e := by
  by_cases hvalid : ∃ n : Nat, 1 ≤ n ∧ version = .int n
  · obtain ⟨n, hn, rfl⟩ := hvalid
    have hconnected := (Undisturbed.refl e).connected path n
    have hrun := Action.beginOpen_run hn path callback e
    rcases Nat.lt_trichotomy n (e.store path).version with hlower | hcurrent | hhigher
    · rw [if_pos hlower] at hrun
      exact onlyLeaves_of_ending (r := .error _) hrun rfl (.refl e) fun _ _ _ => nofun
    · rw [if_neg (by omega), if_pos hcurrent] at hrun
      exact onlyLeaves_of_ending (r := .ok _) hrun rfl hconnected fun _ _ _ => nofun
    · by_cases hfree : e.liveAt path = []
      · have hmade : e.Undisturbed (e.upgradeMade path n) := hconnected.congr rfl rfl rfl rfl
        have hbegin := Action.beginOpen_of_unheld he hfree hhigher callback
        cases hhindrance : (e.upgradeMade path n).hindrance e.transactions.length with
        | none =>
            rw [hhindrance] at hbegin
            have hbegun : e.Undisturbed (e.upgradeBegun path n) :=
              (hmade.rework e.transactions.length _).congr rfl rfl rfl rfl
            exact onlyLeaves_of_ending (r := .ok _) hbegin rfl hbegun fun _ _ _ => nofun
        | some f =>
            rw [hhindrance] at hbegin
            have hstarted (t : Transaction) :
                e.Undisturbed ((e.upgradeMade path n).setTransaction e.transactions.length t) :=
              hmade.congr rfl rfl rfl rfl
            exact onlyLeaves_of_ending (r := .error _) hbegin rfl ((hstarted _).closed _)
              fun _ _ _ => nofun
      · refine onlyLeaves_of_refusal rfl rfl hfree (Action.beginOpen_heard he hfree hhigher callback)
          (f := fun d => (d.connected path n).closed e.connections.length) ?_ fun _ _ => rfl
        exact fun d hd => (hd.connected path n).closed _
  · have hrun := Action.beginOpen_of_invalid (fun n hn hv => hvalid ⟨n, hn, hv⟩) path callback e
    exact onlyLeaves_of_ending (r := .error _) hrun rfl (.refl e) fun _ _ _ => nofun

theorem onlyLeaves_deleteStore (path : String) (callback : Option String) :
    (deleteStore path callback).OnlyLeaves e := by
  by_cases hfree : e.liveAt path = []
  · have hrun := Action.deleteStore_of_free hfree callback
    refine onlyLeaves_of_ending (r := .ok _) hrun rfl ?_ fun _ _ _ => nofun
    exact (Undisturbed.refl e).congr rfl rfl rfl rfl
  · exact onlyLeaves_of_refusal rfl rfl hfree (Action.deleteStore_heard hfree callback)
      (f := fun d => d) (fun _ hd => hd) fun _ _ => rfl

/-- Only the close of a connection that is open can disturb those who hold a path or wait for it. -/
theorem onlyLeaves_or_closes (he : e.HoldsMade 0) (c : EngineCall) :
    c.OnlyLeaves e ∨ ∃ id, c = .close id ∧ (e.connection id).isClosed = false := by
  have hnone {α : Type} {a : Action α} (ha : a.Keeps e.Undisturbed) :
      (obtainsNone a).Keeps e.Undisturbed := meets_obtainsNone ha fun _ _ hd => hd
  have hreach := isKeptInReach_undisturbed e
  cases hthrough : c.through? with
  | some tx =>
      refine .inl (onlyLeaves_of_keeps (Action.keeps_run_in_reach (hreach tx) hthrough) ?_)
      cases c <;> first | rfl | cases hthrough
  | none =>
      cases c with
      | beginOpen path version callback => exact .inl (onlyLeaves_beginOpen he path version callback)
      | deleteStore path callback => exact .inl (onlyLeaves_deleteStore path callback)
      | close id =>
          cases hopen : (e.connection id).isClosed with
          | false => exact .inr ⟨id, rfl, hopen⟩
          | true =>
              have hrun := Action.close_of_closed hopen
              exact .inl (onlyLeaves_of_ending (r := .ok ()) hrun rfl (.refl e) fun _ _ _ => nofun)
      | conclude o result =>
          exact .inl (onlyLeaves_of_keeps (hnone (Action.undisturbed_conclude o result)) rfl)
      | addListener id event fails =>
          exact .inl (onlyLeaves_of_keeps (hnone (Action.undisturbed_addListener id event fails)) rfl)
      | removeListener id event serial =>
          exact .inl (onlyLeaves_of_keeps (hnone (Action.undisturbed_removeListener id event serial)) rfl)
      | openTransaction id collections mode =>
          have hmake := Action.keeps_openTransaction_of_make (P := e.Undisturbed)
            (Action.undisturbed_make id) collections mode
          exact .inl (onlyLeaves_of_keeps (hnone hmake) rfl)
      | begin tx => exact .inl (onlyLeaves_of_keeps (hnone (Action.keeps_begin_in_reach (hreach tx))) rfl)
      | commit tx =>
          have hcommit := Action.keeps_commit_in_reach (hreach tx) fun hd => hd.congr rfl rfl rfl rfl
          exact .inl (onlyLeaves_of_keeps (hnone hcommit) rfl)
      | abort tx error =>
          exact .inl (onlyLeaves_of_keeps (hnone (Action.keeps_abort_in_reach (hreach tx) error)) rfl)
      | _ => cases hthrough

end EngineCall

/-! ### Closing -/

namespace Engine

variable {e d : Engine} {path : String} {id : Nat}

/-- After the callbacks that wait for a path were called, if nobody holds it open. -/
def released (e : Engine) (path : String) : Engine :=
  if e.isHeld path then e
  else { e with
    waiters := e.waiters.filter (·.1 != path)
    notices := e.notices ++ (e.waiters.filter (·.1 == path)).map fun w => .unblocked w.2 }

theorem isHeld_released (e : Engine) (path other : String) :
    (e.released path).isHeld other = e.isHeld other := by
  rw [released]
  split
  · rfl
  · rfl

theorem path_withdrawn (e : Engine) (id other : Nat) :
    ((e.withdrawn id).connection other).path = (e.connection other).path :=
  connection_setConnection_congr Connection.path (by rfl) other

/-- The close of a connection does not count for other paths than its own, nor if it did not hold its path
open. -/
theorem isHeld_withdrawn (h : id ∉ e.liveAt path) : (e.withdrawn id).isHeld path = e.isHeld path := by
  have hlive : (e.withdrawn id).liveAt path = e.liveAt path := by
    have hpaths : (e.withdrawn id).liveAt path =
        (e.live.filter (· != id)).filter fun other => (e.connection other).path == path :=
      List.filter_congr fun other _ => by rw [path_withdrawn]
    rw [hpaths, List.filter_filter, liveAt]
    refine List.filter_congr fun other hother => ?_
    by_cases hpath : (e.connection other).path = path
    · have hne : other ≠ id := fun hid => h (hid ▸ mem_liveAt_iff.2 ⟨hother, hpath⟩)
      simp [hne]
    · simp [hpath]
  rw [isHeld, hlive, isHeld]

end Engine

theorem Action.close_run_of_open {e : Engine} {id : Nat} (h : (e.connection id).isClosed = false) :
    close id e = .ok () ((e.withdrawn id).released (e.connection id).path) := by
  have hrelease : release (e.connection id).path (e.withdrawn id) =
      .ok () ((e.withdrawn id).released (e.connection id).path) := by
    unfold release
    rw [bind_of_ok (get_run _), Engine.released, Engine.isHeld]
    cases ((e.withdrawn id).liveAt (e.connection id).path).isEmpty <;> rfl
  unfold close
  rw [bind_of_ok (connection_run id e), h]
  exact hrelease

namespace Engine

/-- What one call does for those who wait, when a callback was left: of all that wait those go on whose
path is held open, and the others are called in their order. -/
structure Serves (e : Engine) (left : Option (String × String)) (d : Engine) : Prop where
  waiters : d.waiters = (e.waiters ++ left.toList).filter fun w => d.isHeld w.1
  called : ∃ more, d.notices = e.notices ++ more ∧ more.filterMap Notice.label? =
    ((e.waiters ++ left.toList).filter fun w => !d.isHeld w.1).map Prod.snd

variable {e d : Engine} {left : Option (String × String)}

theorem Serves.waitsHeld (h : e.Serves left d) : d.WaitsHeld := by
  intro w hw
  rw [h.waiters] at hw
  exact (List.mem_filter.1 hw).2

/-- When all paths that are waited for are held open, nobody is called. -/
theorem serves_of_isHeld {told : List Notice} (hwaiters : d.waiters = e.waiters ++ left.toList)
    (hnotices : d.notices = e.notices ++ told) (htold : told.filterMap Notice.label? = [])
    (hheld : ∀ w ∈ e.waiters ++ left.toList, d.isHeld w.1 = true) : e.Serves left d where
  waiters := by rw [List.filter_eq_self.2 hheld, hwaiters]
  called := by
    have hcalled : ((e.waiters ++ left.toList).filter fun w => !d.isHeld w.1) = [] :=
      List.filter_eq_nil_iff.2 fun w hw => by simp [hheld w hw]
    exact ⟨told, hnotices, by rw [hcalled, htold, List.map_nil]⟩

/-- A close serves those who wait for the path of its connection. -/
theorem serves_released (he : e.WaitsHeld) (id : Nat) :
    e.Serves none ((e.withdrawn id).released (e.connection id).path) := by
  have hothers : ∀ w ∈ e.waiters, w.1 ≠ (e.connection id).path →
      (e.withdrawn id).isHeld w.1 = true := by
    intro w hw hne
    rw [isHeld_withdrawn]
    · exact he w hw
    · exact fun hid => hne (mem_liveAt_iff.1 hid).2.symm
  by_cases hheld : (e.withdrawn id).isHeld (e.connection id).path = true
  · have hsame : (e.withdrawn id).released (e.connection id).path = e.withdrawn id := if_pos hheld
    rw [hsame]
    refine serves_of_isHeld (List.append_nil _).symm (List.append_nil _).symm rfl fun w hw => ?_
    rw [Option.toList_none, List.append_nil] at hw
    by_cases hpath : w.1 = (e.connection id).path
    · rw [hpath]
      exact hheld
    · exact hothers w hw hpath
  · have hwaits : ∀ w ∈ e.waiters,
        ((e.withdrawn id).released (e.connection id).path).isHeld w.1 =
          (w.1 != (e.connection id).path) := by
      intro w hw
      rw [isHeld_released]
      by_cases hpath : w.1 = (e.connection id).path
      · rw [hpath, bne_self_eq_false]
        exact Bool.not_eq_true _ ▸ hheld
      · rw [bne_iff_ne.2 hpath]
        exact hothers w hw hpath
    have hlabels (ws : List (String × String)) :
        (ws.map fun w => Notice.unblocked w.2).filterMap Notice.label? = ws.map Prod.snd := by
      simp [List.filterMap_map, Function.comp_def, Notice.label?]
    have hcalled : (e.waiters.filter fun w =>
        !((e.withdrawn id).released (e.connection id).path).isHeld w.1) =
          e.waiters.filter (·.1 == (e.connection id).path) :=
      List.filter_congr fun w hw => by rw [hwaits w hw, bne, Bool.not_not]
    refine ⟨?_, (e.waiters.filter (·.1 == (e.connection id).path)).map fun w => .unblocked w.2, ?_, ?_⟩
    · rw [Option.toList_none, List.append_nil, List.filter_congr hwaits, released, if_neg hheld]
      rfl
    · rw [released, if_neg hheld]
      rfl
    · rw [Option.toList_none, List.append_nil, hcalled, hlabels]

end Engine

namespace EngineCall

open Engine (Undisturbed)

variable {e : Engine}

/-- One call, whatever it is, serves those who wait. -/
theorem serves_run (he : e.HoldsMade 0) (hwaits : e.WaitsHeld) (c : EngineCall) :
    e.Serves (c.leaves e) (c.run.after e) := by
  rcases onlyLeaves_or_closes he c with ⟨d, hd, hafter, hleft⟩ | ⟨id, rfl, hopen⟩
  · obtain ⟨told, htold, hnone⟩ := hd.told
    have hheld (w : String × String) (hw : e.isHeld w.1 = true) : (c.run.after e).isHeld w.1 = true := by
      rw [hafter]
      exact hd.isHeld he hw
    have hnotices : (c.run.after e).notices = e.notices ++ told := by
      rw [hafter]
      exact htold
    refine Engine.serves_of_isHeld ?_ hnotices hnone fun w hw => hheld w ?_
    · rw [hafter, ← hd.waiters]
    · rcases List.mem_append.1 hw with hw | hw
      · exact hwaits w hw
      · exact hleft w (Option.mem_toList.1 hw)
  · have hending : Action.close id e = ending (.ok ()) _ := Action.close_run_of_open hopen
    have hleaves : (close id).leaves e = none := ite_self _
    have hafter : (close id).run.after e = _ := after_obtainsNone hending
    rw [hleaves, hafter]
    exact Engine.serves_released hwaits id

/-- Only the close of an open connection that holds a path can end that the path is held. -/
theorem exists_close_of_not_isHeld (he : e.HoldsMade 0) {c : EngineCall} {path : String}
    (hheld : e.isHeld path = true) (hfree : (c.run.after e).isHeld path = false) :
    ∃ id ∈ e.liveAt path, c = .close id ∧ (e.connection id).isClosed = false := by
  rcases onlyLeaves_or_closes he c with ⟨d, hd, hafter, -⟩ | ⟨id, rfl, hopen⟩
  · rw [hafter] at hfree
    cases (hd.isHeld he hheld).symm.trans hfree
  · refine ⟨id, ?_, rfl, hopen⟩
    have hending : Action.close id e = ending (.ok ()) _ := Action.close_run_of_open hopen
    have hafter : (close id).run.after e = _ := after_obtainsNone hending
    by_contra hid
    rw [hafter, Engine.isHeld_released, Engine.isHeld_withdrawn hid, hheld] at hfree
    cases hfree

/-- The path that a callback waits for is still held open after the request that left it. -/
theorem isHeld_of_leaves (he : e.HoldsMade 0) {c : EngineCall} {w : String × String}
    (h : c.leaves e = some w) : (c.run.after e).isHeld w.1 = true := by
  rcases onlyLeaves_or_closes he c with ⟨d, hd, hafter, hleft⟩ | ⟨id, rfl, -⟩
  · rw [hafter]
    exact hd.isHeld he (hleft w h)
  · have hleaves : (close id).leaves e = none := ite_self _
    cases hleaves.symm.trans h

end EngineCall

/-! ### Runs -/

namespace Engine

variable (e : Engine) (calls : List EngineCall)

/-- The state before the call with a number, and after all those that come before it. -/
def before (k : Nat) : Engine := e.afterCalls (calls.take k)

/-- The callback that the call with a number leaves to wait, and its path. -/
def registered (i : Nat) : Option (String × String) :=
  calls[i]?.bind fun c => c.leaves (e.before calls i)

/-- A path is held open after a call, and goes on being held until before another one. -/
def heldSince (path : String) (i k : Nat) : Bool :=
  (List.range (k + 1)).all fun m => m ≤ i || (e.before calls m).isHeld path

/-- The callbacks left before a call whose paths are held open ever since. -/
def pending (k : Nat) : List (String × String) :=
  (List.range k).filterMap fun i => (e.registered calls i).filter fun w => e.heldSince calls w.1 i k

/-- A path that was held open since a callback was left is not so any more after a call. -/
def isDue (path : String) (i k : Nat) : Bool :=
  e.heldSince calls path i k && !(e.before calls (k + 1)).isHeld path

/-- The callbacks left before a call that are due at it, in the order in which they were left. -/
def due (k : Nat) : List (String × String) :=
  (List.range k).filterMap fun i => (e.registered calls i).filter fun w => e.isDue calls w.1 i k

/-- The labels of the callbacks that a call calls, in order. -/
def called (k : Nat) : List String :=
  ((e.before calls (k + 1)).notices.drop (e.before calls k).notices.length).filterMap Notice.label?

/-- Callbacks are called once and in time. -/
structure CallsBack : Prop where
  /-- A callback waits only for a path that is held open. -/
  held : ∀ k ≤ calls.length, (e.before calls k).WaitsHeld
  /-- Those wait whose path was held open ever since. -/
  waiters : ∀ k ≤ calls.length, (e.before calls k).waiters = e.pending calls k
  /-- Every call calls those that are due at it, and no others. -/
  called : ∀ k < calls.length, e.called calls k = (e.due calls k).map Prod.snd
  /-- A callback is due only at the close, not made before, of a connection that holds its path. -/
  closing : ∀ i k w, i < k → k < calls.length → e.registered calls i = some w →
    e.isDue calls w.1 i k = true → ∃ id ∈ (e.before calls k).liveAt w.1,
      calls[k]? = some (.close id) ∧ ((e.before calls k).connection id).isClosed = false
  /-- A callback waits still, or was due exactly once. -/
  once : ∀ i k w, i < k → k ≤ calls.length → e.registered calls i = some w →
    e.heldSince calls w.1 i k = true ∨ ∃! j, (i < j ∧ j < k) ∧ e.isDue calls w.1 i j = true

variable {e calls} {path : String} {i j k : Nat}

theorem before_succ (hk : k < calls.length) :
    e.before calls (k + 1) = calls[k].run.after (e.before calls k) := by
  rw [before, before, ← List.take_append_getElem hk, afterCalls, afterCalls, List.foldl_append]
  rfl

theorem registered_of_lt (hk : k < calls.length) :
    e.registered calls k = calls[k].leaves (e.before calls k) := by
  rw [registered, List.getElem?_eq_getElem hk]
  rfl

theorem heldSince_iff : e.heldSince calls path i k = true ↔
    ∀ m, i < m → m ≤ k → (e.before calls m).isHeld path = true := by
  simp only [heldSince, List.all_eq_true, List.mem_range, Bool.or_eq_true, decide_eq_true_eq]
  constructor
  · intro h m hi hk
    exact (h m (by omega)).resolve_left (by omega)
  · intro h m hm
    by_cases hi : m ≤ i
    · exact .inl hi
    · exact .inr (h m (by omega) (by omega))

theorem heldSince_succ (h : i ≤ k) : e.heldSince calls path i (k + 1) =
    (e.heldSince calls path i k && (e.before calls (k + 1)).isHeld path) := by
  rw [Bool.eq_iff_iff, Bool.and_eq_true, heldSince_iff, heldSince_iff]
  constructor
  · exact fun hall => ⟨fun m hi hm => hall m hi (by omega), hall (k + 1) (by omega) (Nat.le_refl _)⟩
  · rintro ⟨hall, hlast⟩ m hi hm
    rcases Nat.lt_or_eq_of_le hm with hlt | rfl
    · exact hall m hi (by omega)
    · exact hlast

theorem heldSince_self : e.heldSince calls path i i = true :=
  heldSince_iff.2 fun _ hi hm => by omega

/-- A callback is due once at most. -/
theorem eq_of_isDue (hj : e.isDue calls path i j = true) (hk : e.isDue calls path i k = true)
    (hij : i < j) (hik : i < k) : j = k := by
  rw [isDue, Bool.and_eq_true, Bool.not_eq_true', heldSince_iff] at hj hk
  rcases Nat.lt_trichotomy j k with hlt | heq | hgt
  · cases (hk.1 (j + 1) (by omega) (by omega)).symm.trans hj.2
  · exact heq
  · cases (hj.1 (k + 1) (by omega) (by omega)).symm.trans hk.2

theorem filterMap_registered (k : Nat) (p : String → Bool) : ((List.range k).filterMap fun i =>
      (e.registered calls i).filter fun w => e.heldSince calls w.1 i k && p w.1) =
    (e.pending calls k).filter fun w => p w.1 := by
  rw [pending, List.filter_filterMap]
  refine List.filterMap_congr fun i _ => ?_
  cases e.registered calls i with
  | none => rfl
  | some w => cases h : e.heldSince calls w.1 i k <;> simp [Option.filter, h]

/-- Those wait after a call who waited before it or were left by it, and whose path is held open. -/
theorem pending_succ (k : Nat) : e.pending calls (k + 1) =
    (e.pending calls k ++ (e.registered calls k).toList).filter fun w =>
      (e.before calls (k + 1)).isHeld w.1 := by
  have hearlier : ∀ i ∈ List.range k, ((e.registered calls i).filter fun w =>
      e.heldSince calls w.1 i (k + 1)) = (e.registered calls i).filter fun w =>
        e.heldSince calls w.1 i k && (e.before calls (k + 1)).isHeld w.1 := by
    intro i hi
    have hle : i ≤ k := Nat.le_of_lt (List.mem_range.1 hi)
    simp only [heldSince_succ hle]
  have hlast : ([k].filterMap fun i => (e.registered calls i).filter fun w =>
      e.heldSince calls w.1 i (k + 1)) =
        (e.registered calls k).toList.filter fun w => (e.before calls (k + 1)).isHeld w.1 := by
    cases h : e.registered calls k with
    | none => simp [h]
    | some w =>
        have hself : e.heldSince calls w.1 k (k + 1) = (e.before calls (k + 1)).isHeld w.1 := by
          rw [heldSince_succ (Nat.le_refl k), heldSince_self, Bool.true_and]
        cases hheld : (e.before calls (k + 1)).isHeld w.1 <;> simp [h, hself, hheld, Option.filter]
  rw [pending, List.range_succ, List.filterMap_append, List.filterMap_congr hearlier, hlast,
    filterMap_registered, List.filter_append]

section Made

variable (he : e.HoldsMade 0) (hcalls : EngineCall.ConcludeMade e calls)

include he hcalls

theorem holdsMade_before (k : Nat) : (e.before calls k).HoldsMade 0 := by
  induction calls generalizing e k with
  | nil =>
      rw [before, List.take_nil]
      exact he
  | cons c rest ih =>
      cases k with
      | zero => exact he
      | succ k => exact ih (EngineCall.holdsMade_after he hcalls.1) hcalls.2 k

/-- From before a call to after it those who wait are served. -/
theorem serves_before (hk : k < calls.length) (hwaits : (e.before calls k).WaitsHeld) :
    (e.before calls k).Serves (e.registered calls k) (e.before calls (k + 1)) := by
  rw [before_succ hk, registered_of_lt hk]
  exact EngineCall.serves_run (holdsMade_before he hcalls k) hwaits _

theorem isHeld_of_registered {w : String × String} (hk : k < calls.length)
    (hw : e.registered calls k = some w) : (e.before calls (k + 1)).isHeld w.1 = true := by
  rw [registered_of_lt hk] at hw
  rw [before_succ hk]
  exact EngineCall.isHeld_of_leaves (holdsMade_before he hcalls k) hw

theorem due_eq (hk : k < calls.length) : e.due calls k =
    (e.pending calls k ++ (e.registered calls k).toList).filter fun w =>
      !(e.before calls (k + 1)).isHeld w.1 := by
  have hlast :
      ((e.registered calls k).toList.filter fun w => !(e.before calls (k + 1)).isHeld w.1) = [] := by
    refine List.filter_eq_nil_iff.2 fun w hw => ?_
    rw [isHeld_of_registered he hcalls hk (Option.mem_toList.1 hw)]
    exact Bool.false_ne_true
  rw [List.filter_append, hlast, List.append_nil]
  exact filterMap_registered k fun path => !(e.before calls (k + 1)).isHeld path

theorem waitsHeld_before (hwaits : e.WaitsHeld) {k : Nat} (hk : k ≤ calls.length) :
    (e.before calls k).WaitsHeld := by
  induction k with
  | zero => exact hwaits
  | succ k ih => exact (serves_before he hcalls hk (ih (by omega))).waitsHeld

theorem waiters_before (hwaiters : e.waiters = []) {k : Nat} (hk : k ≤ calls.length) :
    (e.before calls k).waiters = e.pending calls k := by
  have hwaits : e.WaitsHeld := fun w hw => by rw [hwaiters] at hw; cases hw
  induction k with
  | zero => exact hwaiters
  | succ k ih =>
      rw [(serves_before he hcalls hk (waitsHeld_before he hcalls hwaits (by omega))).waiters,
        ih (by omega), pending_succ]

theorem called_eq (hwaiters : e.waiters = []) (hk : k < calls.length) :
    e.called calls k = (e.due calls k).map Prod.snd := by
  have hwaits : e.WaitsHeld := fun w hw => by rw [hwaiters] at hw; cases hw
  have hserves := serves_before he hcalls hk (waitsHeld_before he hcalls hwaits (Nat.le_of_lt hk))
  obtain ⟨more, hmore, hlabels⟩ := hserves.called
  rw [waiters_before he hcalls hwaiters (Nat.le_of_lt hk)] at hlabels
  rw [called, hmore, List.drop_left, hlabels, due_eq he hcalls hk]

/-- From the request that left it on, a callback waits until it is due. -/
theorem heldSince_or_exists_isDue {w : String × String} (hik : i < k) (hk : k ≤ calls.length)
    (hw : e.registered calls i = some w) :
    e.heldSince calls w.1 i k = true ∨ ∃ j, (i < j ∧ j < k) ∧ e.isDue calls w.1 i j = true := by
  induction k, hik using Nat.le_induction with
  | base =>
      left
      rw [heldSince_succ (Nat.le_refl i), heldSince_self, Bool.true_and]
      exact isHeld_of_registered he hcalls (by omega) hw
  | succ k hik ih =>
      rcases ih (by omega) with hheld | ⟨j, ⟨hij, hjk⟩, hdue⟩
      · cases hlast : (e.before calls (k + 1)).isHeld w.1 with
        | true =>
            left
            rw [heldSince_succ (by omega), hheld, hlast]
            rfl
        | false =>
            right
            refine ⟨k, ⟨hik, Nat.lt_succ_self k⟩, ?_⟩
            rw [isDue, hheld, hlast]
            rfl
      · exact .inr ⟨j, ⟨hij, by omega⟩, hdue⟩

/-- Who waits when calls begin is called back once, at the close that ends that the path is held. -/
theorem callsBack_of_holdsMade (hwaiters : e.waiters = []) : e.CallsBack calls where
  held k hk := waitsHeld_before he hcalls (fun w hw => by rw [hwaiters] at hw; cases hw) hk
  waiters k hk := waiters_before he hcalls hwaiters hk
  called k hk := called_eq he hcalls hwaiters hk
  closing i k w hik hk hw hdue := by
    rw [isDue, Bool.and_eq_true, Bool.not_eq_true', heldSince_iff, before_succ hk] at hdue
    obtain ⟨id, hid, hclose, hopen⟩ := EngineCall.exists_close_of_not_isHeld
      (holdsMade_before he hcalls k) (hdue.1 k hik (Nat.le_refl k)) hdue.2
    exact ⟨id, hid, by rw [List.getElem?_eq_getElem hk, hclose], hopen⟩
  once i k w hik hk hw := by
    rcases heldSince_or_exists_isDue he hcalls hik hk hw with hheld | ⟨j, hj, hdue⟩
    · exact .inl hheld
    · exact .inr ⟨j, ⟨hj, hdue⟩, fun j' hj' => eq_of_isDue hj'.2 hdue hj'.1.1 hj.1⟩

end Made

/-- Callbacks are called once and in time. From the start of the engine on some stores, whatever calls
follow one another on any paths, overlapping openings among them: a callback waits only for a path that is
held open; it is called once, by the close that leaves the path without live connections, in the order in
which the callbacks were left; and no other call, no close elsewhere and no repeated close calls it. -/
theorem callsBack_onStores (stores : List (String × Store)) {calls : List EngineCall}
    (hcalls : EngineCall.ConcludeMade (onStores stores) calls) : (onStores stores).CallsBack calls :=
  callsBack_of_holdsMade ⟨Nat.zero_le _, nofun⟩ hcalls rfl

/-- Two requests are refused for a connection to a store; another connection is opened meanwhile, and the
first one is closed twice before the other. -/
def shiftCalls : List EngineCall :=
  [.beginOpen "path" (.int 1) none, .conclude (.current 0) (.ok ()),
    .beginOpen "path" (.int 2) (some "first"), .beginOpen "path" (.int 1) none,
    .conclude (.current 2) (.ok ()), .deleteStore "path" (some "second"), .close 0, .close 0, .close 2]

/-- Both callbacks are called by the last close, and none before. -/
theorem callsBack_onStores_shiftCalls :
    (onStores [("path", ⟨1, .empty⟩)]).CallsBack shiftCalls ∧
      (onStores [("path", ⟨1, .empty⟩)]).called shiftCalls 8 = ["first", "second"] ∧
      ∀ k < 8, (onStores [("path", ⟨1, .empty⟩)]).called shiftCalls k = [] := by
  refine ⟨callsBack_onStores _ ?_, by decide +kernel, by decide +kernel⟩
  refine ⟨trivial, ?_, trivial, trivial, ?_, trivial, trivial, trivial, trivial, trivial⟩
  · change 0 < (Engine.connections _).length
    decide +kernel
  · change 2 < (Engine.connections _).length
    decide +kernel

end Engine
end RecordStore
