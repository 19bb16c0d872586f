import RecordStore.Proofs.Document.Injection
import RecordStore.Proofs.Engine.Changes
import RecordStore.Proofs.Engine.Order
import RecordStore.Proofs.Engine.Runs

/-!
Writes that fail. Whatever a write fails for, it leaves records, index entries and the catalog as
they were: all that can fail comes before the first of them is touched, and only the generator of
keys may have moved on by then.
-/

namespace RecordStore

open Effect

namespace Collection

/-- Once the key of a record is found, the record can be written as text. -/
theorem exists_dumps_of_resolveKey {c d : Collection} {name : String} {keying : Keying}
    {record key k v : Value} (hr : record.IsStored)
    (h : c.resolveKey name keying record key = (.ok (k, v), d)) : ∃ text, v.dumps = .ok text := by
  have hrecord : ∃ text, record.dumps = .ok text := by
    obtain ⟨text, htext, _⟩ := Value.loads_dumps hr
    exact ⟨text, htext⟩
  rcases (resolveKey_cases h).2 with ⟨_, hf⟩ | ⟨_, hf, _⟩ | ⟨n, _, hf, hle, hwith⟩
  · cases hf
  · cases hf
    exact hrecord
  · cases hf
    unfold recordWith at hwith
    split at hwith
    · split at hwith
      · exact KeyPath.exists_dumps_inject (isStored_generated hle) hr hwith
      · cases hwith
        exact hrecord
    · cases hwith
      exact hrecord

end Collection

/-- The handle through which a call writes one record, and the record. -/
def EngineCall.record? : EngineCall → Option (StoreRef × Value)
  | add r value _ | put r value _ => some (r, value)
  | updateCursor c value => some (c.store, value)
  | _ => none

/-- Two stores differ in nothing but the last key that was generated in one collection. -/
structure Store.SameData (name : String) (s t : Store) : Prop where
  version : t.version = s.version
  others : ∀ other, other ≠ name → t.contents.get other = s.contents.get other
  collection : (s.contents.get name).SameData (t.contents.get name)

namespace Store.SameData

variable {s t : Store} {name : String}

theorem refl (name : String) (s : Store) : SameData name s s := ⟨rfl, fun _ _ => rfl, .refl _⟩

theorem indexesAgree (h : SameData name s t) {flawed : String → String → Prop}
    (hs : s.contents.IndexesAgree flawed) : t.contents.IndexesAgree flawed := by
  intro other i hi hflawed
  by_cases hname : other = name
  · subst hname
    rw [h.collection.indexes] at hi
    rw [h.collection.records]
    exact hs other i hi hflawed
  · rw [h.others other hname] at hi ⊢
    exact hs other i hi hflawed

end Store.SameData

variable {e d : Engine}

/-- A write to a draft that fails leaves it with the same data. -/
theorem StoreRef.meets_write_of_draft {r : StoreRef} {s : Store}
    (h : e.draft? r.transaction = some s)
    (hmode : (e.transaction r.transaction).mode ≠ .readonly) (value key : Value) (overwrite : Bool) :
    (r.write value key overwrite).Meets (· = e) (fun _ _ => True)
      (fun d => ∃ t, d = e.redraft r.transaction t ∧ Store.SameData r.name s t) := by
  refine meets_bind_of_ok (Action.ensureWritable_of_draft h hmode)
    (meets_of_ending (change_of_draft h _) (fun _ _ => trivial) fun f hf => ⟨_, rfl, rfl, ?_, ?_⟩)
  · exact fun other hother => Contents.get_set_of_ne hother _ _
  · change (s.contents.get r.name).SameData ((s.contents.set r.name _).get r.name)
    rw [Contents.get_set_self]
    rcases Collection.write_cases (Prod.ext hf rfl) with ⟨_, _, hsame⟩ | ⟨_, _, _, _, _, _, hk, _⟩
    · exact hsame
    · cases hk

/-- In an orderly state a transaction that is active and may write has a draft, or its connection
is closed. -/
theorem Engine.IsOrderly.isClosed_of_no_draft {tx : Nat} (he : e.IsOrderly)
    (h : e.draft? tx = none) (hactive : (e.transaction tx).isActive = true)
    (hmode : (e.transaction tx).mode ≠ .readonly) :
    (e.connection (e.transaction tx).connection).isClosed = true := by
  by_contra hopen
  rw [Bool.not_eq_true] at hopen
  have hsuits := he.suits tx hactive hopen
  cases hwork : (e.connection (e.transaction tx).connection).work with
  | idle => rw [hwork] at hsuits; exact hsuits
  | reading snapshot => rw [hwork] at hsuits; exact hmode hsuits
  | writing s =>
      rw [draft?_eq_some_iff.2 ⟨hactive, hopen, hwork⟩] at h
      cases h

/-- A write through a transaction without a draft does nothing. -/
theorem StoreRef.leads_write_of_no_draft {r : StoreRef} (he : e.IsOrderly)
    (h : e.draft? r.transaction = none) (value key : Value) (overwrite : Bool) :
    (r.write value key overwrite).Leads e e := by
  by_cases hactive : (e.transaction r.transaction).isActive = true
  · have hensured : Action.ensureActive r.transaction e = .ok (e.transaction r.transaction) e := by
      rw [Action.ensureActive_run, if_pos hactive]
    by_cases hmode : (e.transaction r.transaction).mode = .readonly
    · refine meets_fail (meets_bind_of_ok hensured ?_)
      rw [if_pos hmode]
      exact keeps_throw _
    · have hclosed := he.isClosed_of_no_draft h hactive hmode
      refine meets_bind_of_ok (t := e) (x := e.transaction r.transaction) ?_ ?_
      · unfold Action.ensureWritable
        rw [bind_of_ok hensured, if_neg hmode]
        rfl
      · refine meets_fail (meets_fail (meets_bind_of_ok hensured (meets_fail ?_)))
        refine meets_of_ending (r := .error (.argument .connectionGone)) ?_ nofun fun _ _ => rfl
        rw [Action.statement_run, if_pos hclosed]
        rfl
  · rw [Bool.not_eq_true] at hactive
    exact meets_fail (meets_fail (Action.meets_ensureActive_of_inactive hactive))

/-- What a call that writes one record does when it fails. -/
theorem EngineCall.meets_run_of_record {c : EngineCall} {r : StoreRef} {value : Value}
    (hc : c.record? = some (r, value)) {E : Engine → Prop} (he : E e)
    (hwrite : ∀ key overwrite, (r.write value key overwrite).Meets (· = e) (fun _ _ => True) E) :
    c.run.Meets (· = e) (fun _ _ => True) E := by
  cases c with
  | add other v key =>
      cases hc
      exact meets_bind (hwrite key false) fun _ => meets_pure fun _ _ => trivial
  | put other v key =>
      cases hc
      exact meets_bind (hwrite key true) fun _ => meets_pure fun _ _ => trivial
  | updateCursor cursor v =>
      cases hc
      refine meets_bind (CursorRef.meets_update (fun d hd => ?_) fun key => hwrite key true) fun _ =>
        meets_pure fun _ _ => trivial
      rw [hd]
      exact he
  | _ => cases hc

namespace Action

/-- A write that fails leaves the data as it was. Without a draft it changes nothing at all. With
one it changes at most the last key that was generated in its own collection, so that every index
that agreed with the records still does once the draft is committed. The write only ever works on
the clone of its value, and what it has made of the clone can be written as text. -/
theorem run_sameData_of_error (he : e.IsReachable) {c : EngineCall} {r : StoreRef}
    {value : Value} (hc : c.record? = some (r, value)) {f : Failure} (h : c.run e = .error f d) :
    (e.draft? r.transaction = none → d = e) ∧
      (∀ s, e.draft? r.transaction = some s →
        ∃ t, d = e.redraft r.transaction t ∧ Store.SameData r.name s t ∧
          ∃ d', commit r.transaction d = .ok () d' ∧ ∀ flawed, s.contents.IndexesAgree flawed →
            (d'.store (e.connection (e.transaction r.transaction).connection).path).contents.IndexesAgree
              flawed) ∧
      ∀ (c : Collection) (key : Value),
        (∀ overwrite other, other.clone = value.clone →
          c.write r.name r.keying other key overwrite = c.write r.name r.keying value key overwrite) ∧
        ∀ record k v c', value.clone = .ok record →
          c.resolveKey r.name r.keying record key = (.ok (k, v), c') → ∃ text, v.dumps = .ok text := by
  have horderly := Engine.isOrderly_of_isReachable he
  refine ⟨fun hdraft => ?_, fun s hdraft => ?_, fun c key => ⟨fun overwrite other hother => ?_,
    fun record k v c' hclone hresolve => ?_⟩⟩
  · exact (EngineCall.meets_run_of_record (E := (· = e)) hc rfl fun key overwrite =>
      (StoreRef.leads_write_of_no_draft horderly hdraft value key overwrite).imp
        (fun _ hd => hd) (fun _ _ _ => trivial) fun _ hd => hd).of_error rfl h
  · have hwriting := Engine.draft?_eq_some_iff.1 hdraft
    have hmode : (e.transaction r.transaction).mode ≠ .readonly := by
      have hsuits := horderly.suits _ hwriting.active hwriting.isOpen
      rw [hwriting.work] at hsuits
      exact hsuits
    obtain ⟨t, rfl, hsame⟩ := (EngineCall.meets_run_of_record
      (E := fun d => ∃ t, d = e.redraft r.transaction t ∧ Store.SameData r.name s t) hc
      ⟨s, (Engine.redraft_self hdraft).symm, .refl _ _⟩ fun key overwrite =>
        StoreRef.meets_write_of_draft hdraft hmode value key overwrite).of_error rfl h
    have hpath := congrArg Connection.path (Engine.connection_rework_self hwriting (.writing t))
    refine ⟨t, rfl, hsame, _, commit_run (hwriting.rework (.writing t)), fun flawed hagree => ?_⟩
    rw [← hpath]
    exact (congrArg Store.contents (Engine.store_keep_self _ _ t)).symm ▸ hsame.indexesAgree hagree
  · unfold Collection.write
    rw [hother]
  · exact Collection.exists_dumps_of_resolveKey (Value.isStored_of_clone hclone) hresolve

/-! ### A write that a unique index refuses -/

/-- A collection as the upgrade that makes it obtains it, and as a later transaction does. -/
def shelf (tx : Nat) : StoreRef := ⟨tx, "shelf", ⟨none, true⟩⟩

/-- A transaction that writes to a collection with a unique index, after one record was put. -/
def shelfReady : Engine :=
  Engine.initial.afterCalls [.beginOpen "path" (.int 1) none,
    .createCollection 0 (.text "shelf") .null (.bool true),
    .createIndex (shelf 0) (.text "value") (.text "") (.bool true) (.bool false),
    .conclude (.upgrade 0 0 0 1) (.ok ()), .openTransaction 0 (.text "shelf") (.text "readwrite"),
    .begin 1, .put (shelf 1) (.text "first") .null]

theorem isReachable_shelfReady : shelfReady.IsReachable := by
  unfold shelfReady
  exact Engine.isReachable_afterCalls .initial _

theorem isSome_draft?_shelfReady : (shelfReady.draft? (shelf 1).transaction).isSome = true := by
  decide +kernel

/-- A second record with the same index key fails, after its key was generated. -/
theorem run_sameData_of_error_shelf :
    ∃ f d s, (EngineCall.add (shelf 1) (.text "first") .null).run shelfReady = .error f d ∧
      shelfReady.draft? (shelf 1).transaction = some s ∧
        ∃ t, d = shelfReady.redraft (shelf 1).transaction t ∧ Store.SameData "shelf" s t := by
  have hfails : (EngineCall.add (shelf 1) (.text "first") .null).run.result? shelfReady = none := by
    decide +kernel
  obtain ⟨f, d, hrun⟩ := exists_error_of_result? hfails
  obtain ⟨s, hs⟩ := Option.isSome_iff_exists.1 isSome_draft?_shelfReady
  have hrecord : (EngineCall.add (shelf 1) (.text "first") .null).record? =
      some (shelf 1, .text "first") := rfl
  obtain ⟨_, hdrafted, _⟩ := run_sameData_of_error isReachable_shelfReady hrecord hrun
  obtain ⟨t, hd, hst, _⟩ := hdrafted s hs
  exact ⟨f, d, s, hrun, hs, t, hd, hst⟩

end Action
end RecordStore
