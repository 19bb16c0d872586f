import RecordStore.Proofs.Engine.Calls
import RecordStore.Proofs.Engine.Soundness

/-!
Runs of the engine: any calls in any order, each through handles that earlier calls obtained. A run
remembers the handles, and the indexes that were given up in drafts that are still there. In every
state that is reached all indexes agree with the records, in the stores that are kept, in what
transactions read, and in drafts up to the indexes that were given up.
-/

namespace RecordStore

/-- How far a run has come: the state of the engine, the handles that were obtained, and the
indexes that were given up in drafts. -/
structure Course where
  engine : Engine
  handles : List StoreRef
  givenUp : List GivenUp

/-- A connection has a draft. -/
def Engine.isDrafting (e : Engine) (id : Nat) : Bool :=
  match (e.connection id).work with
  | .writing _ => true
  | _ => false

namespace Course

def initial : Course := ⟨.initial, [], []⟩

/-- The connection whose draft a handle of a collection changes. -/
def drafter (t : Course) (tx : Nat) : Nat := (t.engine.transaction tx).connection

/-- The indexes that are given up after a call that succeeded or failed: the making of an index
that was not there gives it up when it fails. -/
def givenUpBy (t : Course) (c : EngineCall) (failed : Bool) : List GivenUp :=
  match c with
  | .createIndex r name _ _ _ =>
    let g : GivenUp := ⟨t.drafter r.transaction, r.name, name.display⟩
    if failed then
      if r.hasIndex name.display t.engine then t.givenUp else g :: t.givenUp
    else t.givenUp.filter (· ≠ g)
  | _ => t.givenUp

/-- The run after one more call. What was given up in a draft is forgotten with the draft. -/
def next (t : Course) (c : EngineCall) : Course :=
  match c.run t.engine with
  | .ok r e =>
    ⟨e, t.handles ++ r.toList, (t.givenUpBy c false).filter fun g => e.isDrafting g.connection⟩
  | .error _ e =>
    ⟨e, t.handles, (t.givenUpBy c true).filter fun g => e.isDrafting g.connection⟩

/-- What a caller may do: use the handles that were obtained, commit no draft in which an index was
given up, and make no collection with a tag in its key path. -/
structure Allows (t : Course) (c : EngineCall) : Prop where
  handle : ∀ r ∈ c.handle?, r ∈ t.handles
  commit : ∀ tx ∈ c.commits?, (t.engine.transaction tx).isActive = true →
    ∀ g ∈ t.givenUp, g.connection ≠ t.drafter tx
  keyPath : ∀ tx name keyPath autoIncrement, c = .createCollection tx name keyPath autoIncrement →
    ∀ path, KeyPath.ofValue keyPath = .ok (some path) → path.IsTagFree

/-- A call through a handle that was obtained, which neither commits nor makes a collection. -/
theorem allows_of_mem {t : Course} {c : EngineCall} {r : StoreRef} (hc : c.handle? = some r)
    (hr : r ∈ t.handles) : t.Allows c where
  handle other ho := by
    cases hc.symm.trans ho
    exact hr
  commit := by
    cases c with
    | conclude o result => cases hc
    | commit tx => cases hc
    | _ => nofun
  keyPath := by
    rintro tx name keyPath autoIncrement rfl
    cases hc

/-- Runs of calls that a caller may make. -/
inductive IsReached : Course → Prop
  | start : IsReached initial
  | next {t : Course} {c : EngineCall} : t.IsReached → t.Allows c → (t.next c).IsReached

/-- The invariant of runs. -/
structure IsSound (t : Course) : Prop where
  engine : t.engine.IsSound t.givenUp
  handles : ∀ r ∈ t.handles, r.keying.IsTagFree

end Course

/-! ### One call -/

namespace EngineCall

open Effect

/-- A call that neither makes an index nor commits leaves the state sound, with the same indexes
given up. -/
theorem isSound_run {t : Course} (ht : t.IsSound) {c : EngineCall} (hc : t.Allows c)
    (hindex : ∀ r name keyPath unique multiEntry, c ≠ createIndex r name keyPath unique multiEntry)
    (hcommit : c.commits? = none) :
    c.run.Ensures (Engine.IsSound t.givenUp) fun r => ∀ h ∈ r, h.keying.IsTagFree := by
  have hP := Engine.isStable_isSound t.givenUp
  by_cases hcalm : c.isCalm = true
  · exact (keeps_run_of_isCalm hP hcalm).imp (fun _ he => he)
      (fun _ _ ⟨he, hr⟩ => ⟨he, hr ▸ nofun⟩) fun _ he => he
  have hnone {α : Type} {a : Action α} (ha : a.Keeps (Engine.IsSound t.givenUp)) :
      (obtainsNone a).Ensures (Engine.IsSound t.givenUp)
        fun r => ∀ h ∈ r, h.keying.IsTagFree :=
    meets_obtainsNone ha fun _ _ he => ⟨he, nofun⟩
  have hsome {a : Action StoreRef}
      (ha : a.Ensures (Engine.IsSound t.givenUp) fun r => r.keying.IsTagFree) :
      Effect.Ensures (Engine.IsSound t.givenUp)
        (fun r : Option StoreRef => ∀ h ∈ r, h.keying.IsTagFree) (do return some (← a)) := by
    refine ensures_bind ha fun r hr => meets_pure fun _ he => ⟨he, ?_⟩
    rintro _ ⟨⟩
    exact hr
  have hread (tx : Nat) : (Action.read tx).Ensures (Engine.IsSound t.givenUp)
      fun s => ∃ id, s.contents.IsSound (GivenUp.flawed t.givenUp id) :=
    Action.isSound_read_of_sound tx
  have hopen (tx : Nat) (name : Value) : (Action.openCollection tx name).Ensures
      (Engine.IsSound t.givenUp) fun r => r.keying.IsTagFree :=
    Action.ensures_openCollection hP (hread tx)
      (fun _ ⟨_, hs⟩ name => (hs name).tagFree) name
  have hhandle {r : StoreRef} (hr : c.handle? = some r) : r.keying.IsTagFree :=
    ht.handles r (hc.handle r hr)
  cases c with
  | beginOpen path version callback =>
      exact hnone (Action.keeps_beginOpen hP (fun _ tx he _ => Engine.isSound_begun he tx) _ _ _)
  | conclude o result =>
      cases o with
      | current id => exact absurd rfl hcalm
      | upgrade id tx old new =>
          cases result with
          | ok u => cases hcommit
          | error f =>
              exact hnone (Action.meets_conclude_upgrade hP hP (fun _ he => he)
                (Action.isSound_write_of_sound fun _ _ hs => hs) nofun)
  | deleteStore path callback =>
      exact hnone (Action.meets_deleteStore hP fun _ he => Engine.isSound_forget he)
  | begin tx =>
      exact hnone (Action.meets_begin hP (fun _ he => he) fun _ he _ =>
        Engine.isSound_begun he tx)
  | commit tx => cases hcommit
  | openCollection tx name => exact hsome (hopen tx name)
  | createCollection tx name keyPath autoIncrement =>
      refine hsome (Action.ensures_createCollection (hread tx).keeps
        (fun name path hpath => Action.isSound_write_of_sound fun s flawed hs =>
          Contents.isSound_create hs ?_) fun name => hopen tx _)
      rintro p ⟨⟩
      exact hc.keyPath tx _ keyPath _ rfl p hpath
  | deleteCollection tx name =>
      exact hnone (Action.meets_deleteCollection (hread tx).keeps
        (Action.isSound_write_of_sound fun _ _ hs => Contents.isSound_delete hs))
  | createIndex r name keyPath unique multiEntry => exact absurd rfl (hindex r name _ _ _)
  | deleteIndex r name =>
      exact hnone (StoreRef.keeps_deleteIndex (hread _).keeps (fun index =>
        r.isSound_change_of_sound fun _ _ hs => Collection.isSound_deleteIndex hs index) name)
  | add r value key => exact hnone (StoreRef.isSound_write (hhandle rfl) value key false)
  | put r value key => exact hnone (StoreRef.isSound_write (hhandle rfl) value key true)
  | delete r query => exact hnone (r.isSound_delete query)
  | clear r =>
      exact hnone (StoreRef.meets_clear
        (r.isSound_change_of_sound fun _ _ hs => Collection.isSound_clear hs))
  | updateCursor c value =>
      exact hnone (CursorRef.meets_update (fun _ he => he) fun key =>
        StoreRef.isSound_write (hhandle rfl) value key true)
  | deleteAtCursor c => exact hnone (CursorRef.meets_delete (fun _ he => he) (c.store.isSound_delete _))
  | _ => exact absurd rfl hcalm

end EngineCall

/-- With a draft that is gone goes what was given up in it. -/
theorem Engine.IsSound.filter {e : Engine} {givenUp : List GivenUp} (h : e.IsSound givenUp) :
    e.IsSound (givenUp.filter fun g => e.isDrafting g.connection) where
  kept := h.kept
  work id := by
    have hwork := h.work id
    cases hw : (e.connection id).work with
    | idle => trivial
    | reading snapshot =>
        rw [hw] at hwork
        cases snapshot with
        | none => trivial
        | some s => exact hwork
    | writing draft =>
        rw [hw] at hwork
        refine Contents.IsSound.mono hwork fun name index hg => List.mem_filter.2 ⟨hg, ?_⟩
        rw [isDrafting, hw]

namespace Course

open Effect

variable {t : Course} {c : EngineCall}

theorem givenUpBy_of_ne
    (h : ∀ r name keyPath unique multiEntry, c ≠ .createIndex r name keyPath unique multiEntry)
    (failed : Bool) : t.givenUpBy c failed = t.givenUp := by
  unfold givenUpBy
  split
  · exact absurd rfl (h _ _ _ _ _)
  · rfl

/-- What a call comes to, whether it succeeds or fails. -/
theorem meets_run (ht : t.IsSound) (hc : t.Allows c) :
    c.run.Meets (· = t.engine)
      (fun r e => e.IsSound (t.givenUpBy c false) ∧ ∀ h ∈ r, h.keying.IsTagFree)
      (fun e => e.IsSound (t.givenUpBy c true)) := by
  have hat (tx : Nat) : ∀ e, e = t.engine → e.IsSoundAt t.givenUp tx (t.drafter tx) := by
    rintro _ rfl
    exact ⟨ht.engine, rfl⟩
  have hnone {e : Engine} {givenUp : List GivenUp} (he : e.IsSound givenUp) :
      e.IsSound givenUp ∧ ∀ h ∈ (none : Option StoreRef), h.keying.IsTagFree := ⟨he, nofun⟩
  by_cases hindex : ∃ r name keyPath unique multiEntry,
      c = .createIndex r name keyPath unique multiEntry
  · obtain ⟨r, name, keyPath, unique, multiEntry, rfl⟩ := hindex
    simp only [givenUpBy, Bool.false_eq_true, if_false, if_true]
    by_cases hhas : r.hasIndex name.display t.engine = true
    · rw [if_pos hhas]
      exact meets_fail (StoreRef.isSound_createIndex_of_hasIndex ht.engine hhas _ _ _)
    · rw [if_neg hhas]
      refine meets_bind ((r.isSound_createIndex name keyPath unique multiEntry _).imp
        (hat r.transaction) (fun _ _ he => he) fun _ he => he) fun _ => ?_
      exact meets_pure fun _ he => hnone he
  have hne : ∀ r name keyPath unique multiEntry,
      c ≠ .createIndex r name keyPath unique multiEntry := fun _ _ _ _ _ h => hindex ⟨_, _, _, _, _, h⟩
  rw [givenUpBy_of_ne hne, givenUpBy_of_ne hne]
  cases hcommits : c.commits? with
  | none =>
      exact (EngineCall.isSound_run ht hc hne hcommits).imp (fun _ he => he ▸ ht.engine)
        (fun _ _ he => he) fun _ he => he
  | some tx =>
      have hP := Engine.isStable_isSound t.givenUp
      have hallowed := hc.commit tx hcommits
      by_cases hactive : (t.engine.transaction tx).isActive = true
      · have hcommit : (Action.commit tx).Meets
            (Engine.IsSoundAt t.givenUp tx (t.drafter tx)) (fun _ => Engine.IsSound t.givenUp)
            (Engine.IsSound t.givenUp) := Action.isSound_commit (hallowed hactive)
        unfold EngineCall.commits? at hcommits
        split at hcommits
        · cases hcommits
          exact EngineCall.meets_obtainsNone
            (hcommit.imp (hat tx) (fun _ _ he => he) fun _ he => he) fun _ _ he => hnone he
        · cases hcommits
          refine EngineCall.meets_obtainsNone ((Action.meets_conclude_upgrade hP hP
            (fun _ he => he.1) (Action.isSound_write t.givenUp (fun _ hs => hs) fun _ hg _ => hg)
            fun _ => hcommit).imp (hat tx) (fun _ _ he => he) fun _ he => he) fun _ _ he => hnone he
        · cases hcommits
      · rw [Bool.not_eq_true] at hactive
        have hcommit : (Action.commit tx).Meets (· = t.engine) (fun _ => Engine.IsSound t.givenUp)
            (Engine.IsSound t.givenUp) :=
          (Action.meets_commit_of_inactive hactive).imp (fun _ he => he) (fun _ _ => False.elim)
            fun _ he => he ▸ ht.engine
        unfold EngineCall.commits? at hcommits
        split at hcommits
        · cases hcommits
          exact EngineCall.meets_obtainsNone hcommit fun _ _ he => hnone he
        · cases hcommits
          exact EngineCall.meets_obtainsNone (Action.meets_conclude_upgrade hP hP
            (fun _ he => he ▸ ht.engine) (meets_fail (Action.meets_ensureActive_of_inactive hactive))
            fun _ => hcommit) fun _ _ he => hnone he
        · cases hcommits

/-- One call keeps the invariant. -/
theorem isSound_next (ht : t.IsSound) (hc : t.Allows c) : (t.next c).IsSound := by
  have hrun := meets_run ht hc
  unfold next
  split
  · next r e h =>
    obtain ⟨he, hr⟩ := hrun.of_ok rfl h
    refine ⟨he.filter, fun other ho => ?_⟩
    rcases List.mem_append.1 ho with ho | ho
    · exact ht.handles other ho
    · exact hr other (Option.mem_toList.1 ho)
  · next h => exact ⟨(hrun.of_error rfl h).filter, ht.handles⟩

/-- The invariant holds in every state that a run reaches. -/
theorem isSound_of_isReached (h : t.IsReached) : t.IsSound := by
  induction h with
  | start => exact ⟨Engine.isSound_initial, nofun⟩
  | next _ hc ih => exact isSound_next ih hc

end Course

/-- All indexes agree with the records of their collections, except for some that are named with
their collections. -/
def Contents.IndexesAgree (s : Contents) (flawed : String → String → Prop) : Prop :=
  ∀ name, ∀ i ∈ (s.get name).indexes, ¬flawed name i.name → i.Indexes (s.get name).records

theorem Contents.indexesAgree_of_isSound {s : Contents} {flawed : String → String → Prop}
    (h : s.IsSound flawed) : s.IndexesAgree flawed :=
  fun name i hi hn => (h name).consistent.indexed i hi hn

namespace Course

/-- In every state that a run reaches, all indexes agree with the records of their collections: in
the stores that are kept, in what transactions have read, and in drafts up to the indexes whose
making was given up in them. -/
theorem indexesAgree_of_isReached {t : Course} (h : t.IsReached) :
    (∀ path, (t.engine.store path).contents.IndexesAgree fun _ _ => False) ∧
      (∀ id s, (t.engine.connection id).work = .reading (some s) →
        s.contents.IndexesAgree fun _ _ => False) ∧
      ∀ id s, (t.engine.connection id).work = .writing s →
        s.contents.IndexesAgree fun name index => ⟨id, name, index⟩ ∈ t.givenUp := by
  have hsound := (isSound_of_isReached h).engine
  refine ⟨fun path => Contents.indexesAgree_of_isSound (hsound.kept path), ?_, ?_⟩
  · intro id s hw
    have hwork := hsound.work id
    rw [hw] at hwork
    exact Contents.indexesAgree_of_isSound hwork
  · intro id s hw
    have hwork := hsound.work id
    rw [hw] at hwork
    exact Contents.indexesAgree_of_isSound hwork

/-! ### An index that is refused half way -/

/-- A collection that the first upgrade of a store makes. -/
def numbers : StoreRef := ⟨0, "numbers", ⟨none, false⟩⟩

/-- An upgrade that stores three numbers, two of them equal, and makes an index over them. -/
def numbersIndexed (unique : Bool) : Course :=
  initial
    |>.next (.beginOpen "path" (.int 1) none)
    |>.next (.createCollection 0 (.text "numbers") .null (.bool false))
    |>.next (.put numbers (.int 5) (.int 1))
    |>.next (.put numbers (.int 5) (.int 2))
    |>.next (.put numbers (.int 6) (.int 3))
    |>.next (.createIndex numbers (.text "value") (.text "") (.bool unique) (.bool false))

theorem isReached_numbersIndexed (unique : Bool) : (numbersIndexed unique).IsReached := by
  unfold numbersIndexed
  refine .next (.next (.next (.next (.next (.next .start ⟨nofun, nofun, nofun⟩) ⟨nofun, nofun, ?_⟩)
    (allows_of_mem rfl ?_)) (allows_of_mem rfl ?_)) (allows_of_mem rfl ?_)) (allows_of_mem rfl ?_)
  · rintro _ _ _ _ ⟨⟩ path h
    cases h
  all_goals decide +kernel

/-- The index over the numbers agrees with them once the upgrade is over. -/
theorem indexesAgree_numbersIndexed :
    let t := (numbersIndexed false).next (.conclude (.upgrade 0 0 0 1) (.ok ()))
    t.IsReached ∧ ∀ path, (t.engine.store path).contents.IndexesAgree fun _ _ => False := by
  have hgivenUp : (numbersIndexed false).givenUp = [] := by decide +kernel
  have hreached : ((numbersIndexed false).next (.conclude (.upgrade 0 0 0 1) (.ok ()))).IsReached := by
    refine .next (isReached_numbersIndexed false) ⟨nofun, fun _ _ _ => ?_, nofun⟩
    rw [hgivenUp]
    exact nofun
  exact ⟨hreached, (indexesAgree_of_isReached hreached).1⟩

/-- A unique index over the numbers is refused at the second one. The draft then has an index that
does not lead to the third. -/
theorem not_indexesAgree_numbersIndexed :
    (numbersIndexed true).IsReached ∧ ∃ s,
      ((numbersIndexed true).engine.connection 0).work = .writing s ∧
        ¬s.contents.IndexesAgree fun _ _ => False := by
  refine ⟨isReached_numbersIndexed true, ?_⟩
  have hdata : (match ((numbersIndexed true).engine.connection 0).work with
      | .writing s => ((s.contents.get "numbers").records, (s.contents.get "numbers").indexes.map
          fun i => (i.spec.keyPath, i.entries))
      | _ => ([], [])) =
        ([([16, 191, 240, 0, 0, 0, 0, 0, 0], "5"), ([16, 192, 0, 0, 0, 0, 0, 0, 0], "5"),
          ([16, 192, 8, 0, 0, 0, 0, 0, 0], "6")],
          [(some (.single ""), [([16, 192, 20, 0, 0, 0, 0, 0, 0], [16, 191, 240, 0, 0, 0, 0, 0, 0])])]) := by
    decide +kernel
  cases hw : ((numbersIndexed true).engine.connection 0).work with
  | idle => rw [hw] at hdata; cases hdata
  | reading snapshot => rw [hw] at hdata; cases hdata
  | writing s =>
      refine ⟨s, rfl, fun hagree => ?_⟩
      rw [hw] at hdata
      obtain ⟨hrecords, hindexes⟩ := Prod.mk.inj hdata
      obtain ⟨i, hi, hspec⟩ := List.map_eq_singleton_iff.1 hindexes
      obtain ⟨hpath, hentries⟩ := Prod.mk.inj hspec
      have hall := hagree "numbers" i (by rw [hi]; exact List.mem_singleton_self i) id
      have hkey : (Value.int 6).encodeKey = .ok [16, 192, 24, 0, 0, 0, 0, 0, 0] :=
        eq_ok_of_toOption (by decide +kernel)
      have hthird : (([16, 192, 24, 0, 0, 0, 0, 0, 0], [16, 192, 8, 0, 0, 0, 0, 0, 0]) : Entry) ∈
          i.entries := by
        refine (hall.mem_iff _).2 ⟨"6", .int 6, _, ?_, rfl, ?_, List.mem_singleton_self _⟩
        · rw [hrecords]
          decide
        · rw [IndexSpec.keysFor, hpath]
          change ((Value.int 6).encodeKey).map ([·]) = _
          rw [hkey]
          rfl
      rw [hentries] at hthird
      revert hthird
      decide

end Course
end RecordStore
