import RecordStore.Proofs.Engine.Writers

/-!
Openings that overlap. An upgrade looks once for those who hold its path open, before it begins; whoever
comes to hold the path while its callback runs is at a lower version, and is not told of the new one. So
an upgrade that is committed has the path to itself exactly if all who were opened meanwhile are closed.
-/

namespace RecordStore

open Effect

namespace Engine

/-- Nobody who holds a path open is at a lower version than its store. -/
def IsExclusive (e : Engine) (path : String) : Prop :=
  ∀ id ∈ e.liveAt path, (e.store path).version ≤ (e.connection id).version

instance (e : Engine) (path : String) : Decidable (e.IsExclusive path) :=
  inferInstanceAs (Decidable (∀ id ∈ _, _))

/-- A connection was made for a version that the store of its path has reached. -/
def IsNotAhead (e : Engine) (id : Nat) : Prop :=
  ∃ path n, e.IsMadeFor id path n ∧ n ≤ (e.store path).version

/-- A connection is being upgraded from one version to a higher one. As long as it has its draft, the store
keeps its version; those who hold the path open were opened since the upgrade began. -/
structure Raises (e : Engine) (id tx old new : Nat) (since : List Nat) : Prop where
  upgrade : e.IsUpgradeOf id tx
  made : e.IsMadeFor id (e.connection id).path new
  rises : old < new
  version : ∀ s, e.draft? tx = some s → (e.store (e.connection id).path).version = old
  live : ∀ other ∈ e.liveAt (e.connection id).path, other ∈ since

end Engine

deriving instance DecidableEq for Action.Opening

/-- An opening that is under way, with the connections that were opened since it began. -/
structure Underway where
  opening : Action.Opening
  since : List Nat
  deriving DecidableEq

namespace Underway

/-- Notes that connections were opened. -/
def sees (u : Underway) (ids : List Nat) : Underway := { u with since := u.since ++ ids }

theorem sees_nil (u : Underway) : u.sees [] = u := by
  rw [sees, List.append_nil]

/-- An opening that is under way can still be concluded as it began. -/
def Suits (u : Underway) (e : Engine) : Prop :=
  match u.opening with
  | .current id => e.IsNotAhead id
  | .upgrade id tx old new => e.Raises id tx old new u.since

end Underway

/-- The state of the engine, and the openings that are under way in it. -/
structure Traffic where
  engine : Engine
  underWay : List Underway

namespace Traffic

/-- Nobody has opened any of some stores yet. -/
def onStores (stores : List (String × Store)) : Traffic := ⟨.onStores stores, []⟩

def underWayAfter (t : Traffic) : EngineCall → List Underway
  | .beginOpen path version callback =>
    let begun := (Action.beginOpen path version callback).result? t.engine
    t.underWay ++ begun.toList.map fun o => ⟨o, []⟩
  | .conclude o result =>
    let opened := (o.conclude result).result? t.engine
    let others := t.underWay.filter fun u => u.opening.connection != o.connection
    others.map fun u => u.sees opened.toList
  | _ => t.underWay

def next (t : Traffic) (c : EngineCall) : Traffic := ⟨c.run.after t.engine, t.underWayAfter c⟩

def afterCalls (t : Traffic) (calls : List EngineCall) : Traffic := calls.foldl next t

/-- What may be called: an opening is concluded only while it is under way, and a store is deleted only
while no opening of it is, unless the deletion is refused. -/
def Allows (t : Traffic) : EngineCall → Prop
  | .conclude o _ => ∃ u ∈ t.underWay, u.opening = o
  | .deleteStore path _ => t.engine.liveAt path = [] →
    ∀ u ∈ t.underWay, (t.engine.connection u.opening.connection).path ≠ path
  | _ => True

def AllowsAll (t : Traffic) : List EngineCall → Prop
  | [] => True
  | c :: rest => t.Allows c ∧ (t.next c).AllowsAll rest

/-- Runs in which openings may overlap in any way. -/
inductive IsReached : Traffic → Prop
  | onStores (stores : List (String × Store)) : IsReached (onStores stores)
  | next {t : Traffic} {c : EngineCall} : t.IsReached → t.Allows c → (t.next c).IsReached

/-- The conclusion of an opening that is under way commits the upgrade of a path to a version. -/
structure Commits (t : Traffic) (u : Underway) (path : String) (new : Nat) (d : Engine) : Prop where
  underWay : u ∈ t.underWay
  concludes : ∃ id tx old result, u.opening = .upgrade id tx old new ∧
    (t.engine.connection id).path = path ∧ u.opening.conclude result t.engine = .ok id d

/-- A connection holds its path open, or is being opened. -/
def Involves (t : Traffic) (id : Nat) : Prop :=
  id ∈ t.engine.live ∨ ∃ u ∈ t.underWay, u.opening.connection = id

/-- Who is live is not ahead of its store, and the openings under way can be concluded. -/
structure IsRegular (t : Traffic) : Prop where
  orderly : t.engine.IsOrderly
  writers : t.engine.HasSoleWriters
  live : ∀ id ∈ t.engine.live, t.engine.IsNotAhead id
  underWay : ∀ u ∈ t.underWay, u.Suits t.engine

/-- What a call does: only some connections come to hold paths open, and no version is lowered where one
holds the path or is being opened. -/
structure Moves (t : Traffic) (d : Engine) (ids : List Nat) : Prop where
  writers : d.HasSoleWriters
  live : ∀ id ∈ d.live, id ∈ t.engine.live ∨ id ∈ ids
  version : ∀ path, (∀ id, t.Involves id → (t.engine.connection id).path ≠ path) ∨
    t.engine.VersionPasses d path

variable {t : Traffic} {c : EngineCall} {u : Underway} {d : Engine} {ids : List Nat} {id tx old new : Nat}

theorem IsRegular.holdsMade (h : t.IsRegular) : t.engine.HoldsMade 0 := by
  refine ⟨Nat.zero_le _, fun id hid => ?_⟩
  obtain ⟨_, _, hmade, _⟩ := h.live id hid
  exact hmade.made

theorem IsReached.afterCalls (h : t.IsReached) {calls : List EngineCall} (hcalls : t.AllowsAll calls) :
    (t.afterCalls calls).IsReached := by
  induction calls generalizing t with
  | nil => exact h
  | cons c rest ih => exact ih (h.next hcalls.1) hcalls.2

theorem isRegular_onStores (stores : List (String × Store)) : (onStores stores).IsRegular :=
  ⟨⟨nofun, nofun, nofun⟩, ⟨nofun, nofun⟩, nofun, nofun⟩

/-! ### What a call leaves as it was -/

section Moved

variable (hmoves : t.Moves (c.run.after t.engine) ids)

include hmoves

theorem Moves.isNotAhead (hid : t.Involves id) (h : t.engine.IsNotAhead id) :
    (c.run.after t.engine).IsNotAhead id := by
  obtain ⟨path, n, hmade, hn⟩ := h
  refine ⟨path, n, (Engine.isMadeFor_run c).after hmade, ?_⟩
  rcases hmoves.version path with hfree | hpasses
  · exact absurd hmade.path (hfree id hid)
  · exact hn.trans hpasses.le

theorem Moves.mem_liveAt (h : t.IsRegular) {path : String}
    (hid : id ∈ (c.run.after t.engine).liveAt path) : id ∈ t.engine.liveAt path ∨ id ∈ ids := by
  obtain ⟨hlive, hpath⟩ := Engine.mem_liveAt_iff.1 hid
  refine (hmoves.live id hlive).imp_left fun hwas => Engine.mem_liveAt_iff.2 ⟨hwas, ?_⟩
  obtain ⟨_, _, hmade, _⟩ := h.live id hwas
  exact hmade.path.trans (((Engine.isMadeFor_run c).after hmade).path.symm.trans hpath)

theorem Moves.raises (hreg : t.IsRegular) {since : List Nat} (hid : t.Involves id)
    (h : t.engine.Raises id tx old new since) :
    (c.run.after t.engine).Raises id tx old new (since ++ ids) := by
  have hmade := (Engine.isMadeFor_run c).after h.made
  have hupgrade := (Engine.isUpgradeOf_run c).after h.upgrade
  refine ⟨hupgrade, ?_, h.rises, fun s hs => ?_, fun other hother => ?_⟩
  · rw [hmade.path]
    exact hmade
  · rw [hmade.path]
    obtain ⟨s', hs'⟩ : ∃ s', t.engine.draft? tx = some s' := by
      by_contra hnone
      have hgone := Effect.Meets.after (Engine.noDraft_run c)
        ⟨⟨h.upgrade, hreg.orderly⟩, Option.eq_none_iff_forall_ne_some.2 fun s' hs' => hnone ⟨s', hs'⟩⟩
      cases hgone.2.symm.trans hs
    rcases hmoves.version (t.engine.connection id).path with hfree | hsame | ⟨_, hunwritten⟩
    · exact absurd rfl (hfree id hid)
    · exact hsame.trans (h.version s' hs')
    · -- the upgrade itself still writes to the path
      have hwork := (Engine.draft?_eq_some_iff.1 hs).work
      rw [hupgrade.connection] at hwork
      exact absurd hwork (hunwritten id s hmade.path)
  · rw [hmade.path] at hother
    exact List.mem_append.2 ((hmoves.mem_liveAt hreg hother).imp_left (h.live other))

theorem Moves.suits (hreg : t.IsRegular) (hu : u ∈ t.underWay) :
    (u.sees ids).Suits (c.run.after t.engine) := by
  have hid : t.Involves u.opening.connection := .inr ⟨u, hu, rfl⟩
  have hsuits := hreg.underWay u hu
  obtain ⟨o, since⟩ := u
  cases o with
  | current id => exact hmoves.isNotAhead hid hsuits
  | upgrade id tx old new => exact hmoves.raises hreg hid hsuits

/-- Who was opened must not be ahead, and each opening that is under way after the call was so before, or
suits what there is now. -/
theorem Moves.isRegular (hreg : t.IsRegular) (hids : ∀ id ∈ ids, (c.run.after t.engine).IsNotAhead id)
    (hunderWay : ∀ u ∈ t.underWayAfter c, (∃ v ∈ t.underWay, u = v.sees ids) ∨
      u.Suits (c.run.after t.engine)) : (t.next c).IsRegular where
  orderly := c.isOrderly_run.after hreg.orderly
  writers := hmoves.writers
  live id hid := by
    rcases hmoves.live id hid with hwas | hnew
    · exact hmoves.isNotAhead (.inl hwas) (hreg.live id hwas)
    · exact hids id hnew
  underWay u hu := by
    rcases hunderWay u hu with ⟨v, hv, rfl⟩ | hsuits
    · exact hmoves.suits hreg hv
    · exact hsuits

end Moved

/-! ### What each call does -/

theorem isKeptByLeaving_subset (ids : List Nat) :
    Engine.IsKeptByLeaving fun e => ∀ id ∈ e.live, id ∈ ids where
  congr h hl _ := by rwa [hl]
  leave h := fun id hid => h id (List.mem_of_mem_filter hid)

theorem moves_of_not_conclude (hreg : t.IsRegular) (hc : ∀ o result, c ≠ .conclude o result)
    (hdelete : ∀ path callback, c ≠ .deleteStore path callback) : t.Moves (c.run.after t.engine) [] := by
  have hquiet : c.storesNothing = true ∨ ∃ tx, c = .commit tx := by
    cases c with
    | commit tx => exact .inr ⟨tx, rfl⟩
    | conclude o result => exact absurd rfl (hc o result)
    | deleteStore path callback => exact absurd rfl (hdelete path callback)
    | _ => exact .inl rfl
  obtain ⟨hwriters, hversions⟩ := EngineCall.versions_run hreg.writers hreg.orderly hquiet
  have hlive := (isKeptByLeaving_subset t.engine.live).keeps_run c fun o result h => absurd h (hc o result)
  exact ⟨hwriters, fun id hid => .inl (hlive.after (fun _ h => h) id hid),
    fun path => .inr (hversions path)⟩

theorem moves_beginOpen (hreg : t.IsRegular) (path : String) (version : Value) (callback : Option String) :
    t.Moves ((EngineCall.beginOpen path version callback).run.after t.engine) [] :=
  moves_of_not_conclude hreg (fun _ _ => nofun) fun _ _ => nofun

theorem moves_deleteStore (hreg : t.IsRegular) {path : String} {callback : Option String}
    (hc : t.Allows (.deleteStore path callback)) :
    t.Moves ((EngineCall.deleteStore path callback).run.after t.engine) [] := by
  by_cases hfree : t.engine.liveAt path = []
  · have hrun : (EngineCall.deleteStore path callback).run.after t.engine = t.engine.forget path :=
      EngineCall.after_obtainsNone (r := .ok _) (Action.deleteStore_of_free hfree callback)
    rw [hrun]
    refine ⟨hreg.writers.forget path, fun _ => .inl, fun other => ?_⟩
    by_cases hother : other = path
    · subst hother
      refine .inl fun id hid => ?_
      rcases hid with hlive | ⟨u, hu, rfl⟩
      · exact Engine.path_ne_of_liveAt_eq_nil hfree hlive
      · exact hc hfree u hu
    · refine .inr (.inl ?_)
      rw [Engine.store_forget, if_neg hother]
  · have hrun : (EngineCall.deleteStore path callback).run.after t.engine = _ :=
      EngineCall.after_obtainsNone (r := .error _) (Action.deleteStore_heard hfree callback)
    rw [hrun]
    exact ⟨hreg.writers.congr rfl rfl, fun _ => .inl, fun _ => .inr (.inl rfl)⟩

/-- An opening that has begun suits the state that it began with. -/
theorem suits_of_beginOpen (hreg : t.IsRegular) {path : String} {version : Value} {callback : Option String}
    {o : Action.Opening} (hbegin : Action.beginOpen path version callback t.engine = .ok o d) :
    Underway.Suits ⟨o, []⟩ d := by
  have hafter : (EngineCall.beginOpen path version callback).run.after t.engine = d :=
    EngineCall.after_obtainsNone (r := .ok _) hbegin
  have hmoves := moves_beginOpen hreg path version callback
  cases Action.begins_of_ok hreg.holdsMade hbegin with
  | current _ hcurrent => exact ⟨path, _, Action.isMadeFor_connected _ path _, hcurrent.le⟩
  | @upgrade n hlower hfree _ =>
      have hmade := Action.isMadeFor_upgradeBegun t.engine path n
      refine ⟨Action.isUpgradeOf_upgradeBegun _ path n, ?_, hlower, fun _ _ => ?_, fun other hother => ?_⟩
      · rw [hmade.path]
        exact hmade
      · rw [hmade.path]
        rfl
      · rw [hmade.path, ← hafter] at hother
        rcases hmoves.mem_liveAt hreg hother with hheld | hnew
        · rw [hfree] at hheld
          cases hheld
        · exact hnew

/-- After the upgrade of a connection was committed. -/
structure Raised (t : Traffic) (id new : Nat) (d : Engine) : Prop where
  moves : t.Moves d [id]
  made : d.IsMadeFor id (t.engine.connection id).path new
  version : (d.store (t.engine.connection id).path).version = new
  live : d.live = t.engine.live ++ [id]

/-- An upgrade under way is committed if it still has its draft, or it is given up. -/
theorem conclude_of_raises (hreg : t.IsRegular) {since : List Nat}
    (h : t.engine.Raises id tx old new since) (result : Except Failure Unit) :
    (∃ d, (Action.Opening.upgrade id tx old new).conclude result t.engine = .ok id d ∧ t.Raised id new d ∧
      (t.engine.store (t.engine.connection id).path).version = old) ∨
    ∃ f d, (Action.Opening.upgrade id tx old new).conclude result t.engine = .error f d ∧ t.Moves d [] := by
  have habandon (error : String) : (Action.abandon id tx error).Keeps fun d =>
      (d.HasSoleWriters ∧ d.stores = t.engine.stores) ∧ ∀ id ∈ d.live, id ∈ t.engine.live :=
    (Action.keeps_abandon (Engine.isStable_hasSoleWriters.and
      (Engine.isStable_stores (· = t.engine.stores))) id tx error).and
        ((isKeptByLeaving_subset t.engine.live).keeps_abandon id tx error)
  rcases Action.conclude_cases habandon ⟨⟨hreg.writers, rfl⟩, fun _ h => h⟩ hreg.orderly
    h.upgrade.mode_ne_readonly with ⟨s, hs, hrun⟩ | ⟨f, d, hrun, ⟨hwriters, hstores⟩, hlive⟩
  · have hold := h.version s hs
    have hmade := (Engine.isMadeFor_run (.conclude (.upgrade id tx old new) result)).after h.made
    rw [EngineCall.run, EngineCall.after_obtainsNone (r := .ok _) hrun] at hmade
    have hversion : ((t.engine.committed tx { s with version := new }).store
        (t.engine.connection id).path).version = new := by
      rw [← h.upgrade.connection]
      exact congrArg Store.version (Engine.store_keep_self _ _ _)
    have hpasses (path : String) :
        t.engine.VersionPasses (t.engine.committed tx { s with version := new }) path := by
      refine hreg.writers.versionPasses hs ?_ path
      rw [h.upgrade.connection, hold]
      exact h.rises.le
    refine .inl ⟨_, hrun, ⟨⟨?_, fun _ => List.mem_append.1, fun path => .inr ((hpasses path).joined id)⟩,
      hmade, hversion, rfl⟩, hold⟩
    exact Engine.isStable_hasSoleWriters.joined (hreg.writers.committed hs _) id
  · exact .inr ⟨f, d, hrun, hwriters, fun id hid => .inl (hlive id hid),
      fun path => .inr (.inl (congrArg Store.version (Engine.store_congr hstores path)))⟩

/-- An opening is concluded: its connection is live and not ahead of its store, or nothing is left of it. -/
theorem moves_conclude (hreg : t.IsRegular) (hu : u ∈ t.underWay) (result : Except Failure Unit) :
    t.Moves ((EngineCall.conclude u.opening result).run.after t.engine)
        ((u.opening.conclude result).result? t.engine).toList ∧
      ∀ id ∈ (u.opening.conclude result).result? t.engine,
        ((EngineCall.conclude u.opening result).run.after t.engine).IsNotAhead id := by
  have hsuits := hreg.underWay u hu
  obtain ⟨o, since⟩ := u
  cases o with
  | current id =>
      have hrun : (Action.Opening.current id).conclude result t.engine = .ok id (t.engine.joined id) := rfl
      rw [EngineCall.run, EngineCall.after_obtainsNone (r := .ok _) hrun, result?_of_ok hrun]
      obtain ⟨path, n, hmade, hn⟩ := hsuits
      have hmoves : t.Moves (t.engine.joined id) [id] :=
        ⟨Engine.isStable_hasSoleWriters.joined hreg.writers id, fun _ => List.mem_append.1,
          fun _ => .inr (.inl rfl)⟩
      refine ⟨hmoves, ?_⟩
      rintro _ ⟨⟩
      exact ⟨path, n, (Engine.isStable_isMadeFor id path n).joined hmade id, hn⟩
  | upgrade id tx old new =>
      rcases conclude_of_raises hreg hsuits result with ⟨d, hrun, hcommitted, _⟩ | ⟨f, d, hrun, hmoves⟩
      · rw [EngineCall.run, EngineCall.after_obtainsNone (r := .ok _) hrun, result?_of_ok hrun]
        refine ⟨hcommitted.moves, ?_⟩
        rintro _ ⟨⟩
        exact ⟨_, new, hcommitted.made, hcommitted.version.ge⟩
      · rw [EngineCall.run, EngineCall.after_obtainsNone (r := .error _) hrun, result?_of_error hrun]
        exact ⟨hmoves, nofun⟩

/-- Whatever may be called keeps the state regular. -/
theorem isRegular_next (hreg : t.IsRegular) (hc : t.Allows c) : (t.next c).IsRegular := by
  have hsame (hmoves : t.Moves (c.run.after t.engine) []) (hunderWay : t.underWayAfter c = t.underWay) :
      (t.next c).IsRegular :=
    hmoves.isRegular hreg nofun fun u hu => .inl ⟨u, hunderWay ▸ hu, u.sees_nil.symm⟩
  cases c with
  | conclude o result =>
      obtain ⟨v, hv, rfl⟩ := hc
      obtain ⟨hmoves, hids⟩ := moves_conclude hreg hv result
      refine hmoves.isRegular hreg (fun id hid => hids id (Option.mem_toList.1 hid)) fun u hu => .inl ?_
      obtain ⟨w, hw, rfl⟩ := List.mem_map.1 hu
      exact ⟨w, List.mem_of_mem_filter hw, rfl⟩
  | deleteStore path callback => exact hsame (moves_deleteStore hreg hc) rfl
  | beginOpen path version callback =>
      refine (moves_beginOpen hreg path version callback).isRegular hreg nofun fun u hu => ?_
      rcases List.mem_append.1 hu with hwas | hnew
      · exact .inl ⟨u, hwas, u.sees_nil.symm⟩
      · obtain ⟨o, ho, rfl⟩ := List.mem_map.1 hnew
        obtain ⟨d, hbegin⟩ := exists_ok_of_result? (Option.mem_toList.1 ho)
        have hafter : (EngineCall.beginOpen path version callback).run.after t.engine = d :=
          EngineCall.after_obtainsNone (r := .ok _) hbegin
        exact .inr (hafter ▸ suits_of_beginOpen hreg hbegin)
  | _ => exact hsame (moves_of_not_conclude hreg (fun _ _ => nofun) fun _ _ => nofun) rfl

theorem isRegular_of_isReached (h : t.IsReached) : t.IsRegular := by
  induction h with
  | onStores stores => exact isRegular_onStores stores
  | next _ hc ih => exact isRegular_next ih hc

/-- A store is to be upgraded from one version to the next, and meanwhile opened at the old one. -/
def overlapped : Traffic :=
  (onStores [("path", ⟨1, .empty⟩)]).afterCalls
    [.beginOpen "path" (.int 2) none, .beginOpen "path" (.int 1) none, .conclude (.current 1) (.ok ())]

theorem isReached_overlapped : overlapped.IsReached := by
  refine .afterCalls (.onStores _) ⟨trivial, trivial, ?_, trivial⟩
  change ∃ u ∈ Traffic.underWay _, _
  decide +kernel

end Traffic
end RecordStore
