import RecordStore.Proofs.Collection.Changes
import RecordStore.Proofs.Engine.Calls
import RecordStore.Proofs.Engine.Drafts

/-!
Calls through a transaction as changes of its draft. What a call through a transaction with a draft
does is one change of one collection, which is known before the call is made; a call through one
without a draft keeps every stable property.
-/

namespace RecordStore

open Effect

/-! ### What a call changes -/

namespace StoreRef

/-- What the creation of an index changes. -/
def indexCreation? (r : StoreRef) (name keyPath unique multiEntry : Value) :
    Option (String × Change) :=
  match KeyPath.ofValue keyPath with
  | .error _ => none
  | .ok path =>
    if multiEntry.isTrue && path.any KeyPath.isCompound then none
    else some (r.name, .createIndex name.display ⟨path, unique.isTrue, multiEntry.isTrue⟩)

/-- What the deletion of an index changes. -/
def indexDeletion? (r : StoreRef) (name : Value) (s : Contents) : Option (String × Change) :=
  ((s.get r.name).index? name.display).map fun i => (r.name, .deleteIndex i.name)

/-- What a write changes. -/
def writing (r : StoreRef) (value key : Value) (overwrite : Bool) : String × Change :=
  (r.name, .write r.keying value key overwrite)

/-- What the deletion of records changes. -/
def deletion? (r : StoreRef) (query : Value) : Option (String × Change) :=
  if query.isNull then none
  else match KeyRange.ofQuery query with
    | .error _ => none
    | .ok range => some (r.name, .delete range)

end StoreRef

namespace CursorRef

/-- What a write under a cursor changes. -/
def writing? (c : CursorRef) (value : Value) : Option (String × Change) :=
  if c.cursor.keyOnly || c.cursor.isDone then none
  else match c.store.keying.keyPath with
    | none => some (c.store.writing value c.cursor.primaryKey true)
    | some path =>
      match Cursor.checkKept path c.cursor.primaryKey value with
      | .error _ => none
      | .ok () => some (c.store.writing value .null true)

/-- What the deletion of the record under a cursor changes. -/
def deletion? (c : CursorRef) : Option (String × Change) :=
  if c.cursor.keyOnly || c.cursor.isDone then none else c.store.deletion? c.cursor.primaryKey

end CursorRef

/-- What the creation of a collection changes. -/
def Contents.creation? (s : Contents) (name keyPath autoIncrement : Value) :
    Option (String × Change) :=
  match name, KeyPath.ofValue keyPath with
  | .text name, .ok path =>
    if (autoIncrement.isTrue && (path = some (.single "") || path.any KeyPath.isCompound)) ||
      s.contains name then none
    else some (name, .create ⟨path, autoIncrement.isTrue⟩)
  | _, _ => none

namespace EngineCall

/-- What a call changes in a draft with some contents, through a transaction with a mode. -/
def change? (mode : Mode) (s : Contents) : EngineCall → Option (String × Change)
  | createCollection _ name keyPath autoIncrement => s.creation? name keyPath autoIncrement
  | deleteCollection _ name =>
    if s.contains name.display then some (name.display, .drop) else none
  | createIndex r name keyPath unique multiEntry =>
    if mode = .versionchange then r.indexCreation? name keyPath unique multiEntry else none
  | deleteIndex r name => if mode = .versionchange then r.indexDeletion? name s else none
  | add r value key => some (r.writing value key false)
  | put r value key => some (r.writing value key true)
  | delete r query => r.deletion? query
  | clear r => some (r.name, .clear)
  | updateCursor c value => c.writing? value
  | deleteAtCursor c => c.deletion?
  | _ => none

end EngineCall

/-- A store after a change of its contents, if there is one. -/
def Store.changed (s : Store) (change : Option (String × Change)) : Store :=
  { s with contents := s.contents.changed change }

/-! ### Calls through a transaction with a draft -/

section Drafting

variable {e : Engine} {s : Store}

/-- A transaction with a draft after a change of it, if there is one. -/
def Engine.drafted (e : Engine) (tx : Nat) (s : Store) (change : Option (String × Change)) : Engine :=
  e.redraft tx (s.changed change)

theorem Engine.drafted_none {tx : Nat} (h : e.draft? tx = some s) : e.drafted tx s none = e :=
  redraft_self h

namespace StoreRef

variable {r : StoreRef}

theorem conditions_run (query : Value) (e : Engine) :
    conditions query e = ending ((KeyRange.ofQuery query).map KeyRange.conditionsOf) e := by
  unfold conditions
  cases h : KeyRange.ofQuery query with
  | error f => rw [bind_of_error (ofExcept_run _ _)]; rfl
  | ok range => rw [bind_of_ok (ofExcept_run _ _)]; rfl

theorem conditions_of_range {query : Value} {range : Option (KeyRange Value)}
    (hrange : KeyRange.ofQuery query = .ok range) (e : Engine) :
    conditions query e = .ok (KeyRange.conditionsOf range) e := by
  rw [conditions_run, hrange]
  rfl

theorem leads_write (h : e.draft? r.transaction = some s)
    (hmode : (e.transaction r.transaction).mode ≠ .readonly) (value key : Value) (overwrite : Bool) :
    (r.write value key overwrite).Leads e
      (e.drafted r.transaction s (some (r.writing value key overwrite))) :=
  meets_bind_of_ok (Action.ensureWritable_of_draft h hmode) (leads_of_ending (change_of_draft h _))

theorem leads_clear (h : e.draft? r.transaction = some s)
    (hmode : (e.transaction r.transaction).mode ≠ .readonly) :
    r.clear.Leads e (e.drafted r.transaction s (some (r.name, .clear))) :=
  meets_bind_of_ok (Action.ensureWritable_of_draft h hmode) (leads_of_ending (change_of_draft h _))

theorem leads_delete (h : e.draft? r.transaction = some s)
    (hmode : (e.transaction r.transaction).mode ≠ .readonly) (query : Value) :
    (r.delete query).Leads e (e.drafted r.transaction s (r.deletion? query)) := by
  refine meets_bind_of_ok (Action.ensureWritable_of_draft h hmode) ?_
  unfold deletion?
  by_cases hnull : query.isNull = true
  · rw [if_pos hnull, if_pos hnull, Engine.drafted_none h]
    exact meets_fail (keeps_throw _)
  · rw [if_neg hnull, if_neg hnull]
    cases hrange : KeyRange.ofQuery query with
    | error f =>
        have hconditions := conditions_run query e
        rw [hrange] at hconditions
        rw [Engine.drafted_none h]
        exact meets_bind_of_error hconditions rfl
    | ok range =>
        exact meets_bind_of_ok (conditions_of_range hrange e) (leads_of_ending (change_of_draft h _))

theorem leads_createIndex (h : e.draft? r.transaction = some s)
    (name keyPath unique multiEntry : Value) :
    (r.createIndex name keyPath unique multiEntry).Leads e (e.drafted r.transaction s
      (if (e.transaction r.transaction).mode = .versionchange then
        r.indexCreation? name keyPath unique multiEntry else none)) := by
  refine meets_bind_of_ok (x := e.transaction r.transaction) rfl ?_
  by_cases hmode : (e.transaction r.transaction).mode = .versionchange
  · rw [if_pos hmode, if_neg (not_not_intro hmode)]
    unfold indexCreation?
    cases hpath : KeyPath.ofValue keyPath with
    | error f =>
        rw [Engine.drafted_none h]
        exact meets_fail (keeps_throw _)
    | ok path =>
        refine meets_bind_of_ok (x := path) rfl ?_
        dsimp only
        split
        · rw [Engine.drafted_none h]
          exact meets_fail (keeps_throw _)
        · exact meets_bind (leads_of_ending (change_of_draft h _)) fun _ => meets_pure fun _ hd => hd
  · rw [if_neg hmode, if_pos hmode, Engine.drafted_none h]
    exact meets_fail (keeps_throw _)

theorem leads_deleteIndex (h : e.draft? r.transaction = some s) (name : Value) :
    (r.deleteIndex name).Leads e (e.drafted r.transaction s
      (if (e.transaction r.transaction).mode = .versionchange then
        r.indexDeletion? name s.contents else none)) := by
  refine meets_bind_of_ok (x := e.transaction r.transaction) rfl ?_
  by_cases hmode : (e.transaction r.transaction).mode = .versionchange
  · rw [if_pos hmode, if_neg (not_not_intro hmode)]
    unfold indexDeletion? openIndex
    cases hindex : (s.contents.get r.name).index? name.display with
    | none =>
        rw [Option.map_none, Engine.drafted_none h]
        refine meets_fail (meets_bind_of_ok (collection_of_draft h) ?_)
        rw [hindex]
        exact keeps_throw _
    | some i =>
        refine meets_bind (Q := fun x d => x = ⟨r, i.name, i.spec⟩ ∧ d = e)
          (meets_bind_of_ok (collection_of_draft h) ?_) ?_
        · rw [hindex]
          exact meets_pure fun _ hd => ⟨rfl, hd⟩
        · rintro _ _ ⟨rfl, rfl⟩
          exact leads_of_ending (change_of_draft h _) _ rfl
  · rw [if_neg hmode, if_pos hmode, Engine.drafted_none h]
    exact meets_fail (keeps_throw _)

end StoreRef

namespace CursorRef

variable {c : CursorRef}

theorem leads_update (h : e.draft? c.store.transaction = some s)
    (hmode : (e.transaction c.store.transaction).mode ≠ .readonly) (value : Value) :
    (c.update value).Leads e (e.drafted c.store.transaction s (c.writing? value)) := by
  unfold writing?
  refine meets_guards (fun hrefused d hd => ?_) fun hkey hdone => ?_
  · rw [if_pos (by simpa using hrefused), Engine.drafted_none h]
    exact hd
  · rw [hkey, hdone]
    cases c.store.keying.keyPath with
    | none => exact StoreRef.leads_write h hmode _ _ _
    | some path =>
        dsimp only
        cases Cursor.checkKept path c.cursor.primaryKey value with
        | error f =>
            dsimp only
            rw [Bool.or_false, if_neg Bool.false_ne_true, Engine.drafted_none h]
            exact meets_fail (keeps_throw _)
        | ok u => exact meets_bind_of_ok (x := ()) rfl (StoreRef.leads_write h hmode _ _ _)

theorem leads_delete (h : e.draft? c.store.transaction = some s)
    (hmode : (e.transaction c.store.transaction).mode ≠ .readonly) :
    c.delete.Leads e (e.drafted c.store.transaction s c.deletion?) := by
  unfold deletion?
  refine meets_guards (fun hrefused d hd => ?_) fun hkey hdone => ?_
  · rw [if_pos (by simpa using hrefused), Engine.drafted_none h]
    exact hd
  · rw [hkey, hdone]
    exact StoreRef.leads_delete h hmode _

end CursorRef

namespace Action

variable {tx : Nat}

/-- A collection that is obtained has the keying that the draft says. -/
theorem meets_openCollection_of_draft (h : e.draft? tx = some s) (name : Value) :
    ∃ scope, ((e.transaction tx).mode ≠ .versionchange → scope = (e.transaction tx).scope) ∧
      (openCollection tx name).Meets (· = e)
        (fun r d => d = e.rescope tx scope ∧ r.transaction = tx ∧
          (s.contents.get r.name).header.map Header.keying = some r.keying)
        (· = e.rescope tx scope) := by
  have hrest (scope : List String) : Meets (· = e) (do
      modify (·.setTransaction tx { e.transaction tx with scope := scope })
      openIn tx name scope)
      (fun r d => d = e.rescope tx scope ∧ r.transaction = tx ∧
        (s.contents.get r.name).header.map Header.keying = some r.keying)
      (· = e.rescope tx scope) := by
    have hread : (read tx).Ensures (· = e.rescope tx scope) (· = s) :=
      meets_of_ending (r := .ok s) (read_of_draft (Engine.draft?_rescope h scope))
        (by rintro _ ⟨⟩; exact ⟨rfl, rfl⟩) nofun
    refine meets_bind_of_ok (t := e.rescope tx scope) rfl ?_
    refine (ensures_openIn hread name scope).imp (fun _ hd => hd) ?_ fun _ hd => hd
    rintro r d ⟨hd, htx, _, rfl, hr⟩
    exact ⟨hd, htx, hr⟩
  rw [openCollection_eq]
  by_cases hmode : (e.transaction tx).mode = .versionchange
  · refine ⟨s.contents.names, fun hne => absurd hmode hne, ?_⟩
    refine meets_bind_of_ok (x := e.transaction tx) rfl ?_
    rw [if_pos hmode]
    refine meets_bind_of_ok (x := s.contents.names) (t := e) ?_ (hrest _)
    unfold collectionNames
    rw [bind_of_ok (read_of_draft h)]
    rfl
  · refine ⟨(e.transaction tx).scope, fun _ => rfl, ?_⟩
    refine meets_bind_of_ok (x := e.transaction tx) rfl ?_
    rw [if_neg hmode]
    exact hrest _

/-- A call through a transaction with a draft has made a change of it, at most together with the
scope of an upgrade. -/
structure HasChanged (e : Engine) (tx : Nat) (s : Store) (change : Option (String × Change))
    (d : Engine) : Prop where
  eq : ∃ scope, d = (e.drafted tx s change).rescope tx scope ∧
    ((e.transaction tx).mode ≠ .versionchange → scope = (e.transaction tx).scope)

theorem hasChanged_drafted (e : Engine) (tx : Nat) (s : Store) (change : Option (String × Change)) :
    HasChanged e tx s change (e.drafted tx s change) :=
  ⟨_, (Engine.rescope_self _ _).symm, fun _ => rfl⟩

theorem leads_deleteCollection (h : e.draft? tx = some s) (name : Value) :
    (deleteCollection tx name).Leads e (e.drafted tx s
      (if s.contents.contains name.display then some (name.display, .drop) else none)) := by
  refine meets_bind_of_ok (read_of_draft h) ?_
  cases hcontains : s.contents.contains name.display with
  | false =>
      rw [if_neg Bool.false_ne_true, Engine.drafted_none h]
      exact meets_fail (keeps_throw _)
  | true =>
      refine leads_of_ending (r := .ok ()) (write_of_draft h _)

/-- A collection that is created is obtained at once, with the keying it was created with. -/
theorem meets_createCollection_of_draft (h : e.draft? tx = some s)
    (name keyPath autoIncrement : Value) :
    (createCollection tx name keyPath autoIncrement).Meets (· = e)
      (fun r d => HasChanged e tx s (s.contents.creation? name keyPath autoIncrement) d ∧
        r.transaction = tx ∧ (((s.contents.changed
          (s.contents.creation? name keyPath autoIncrement)).get r.name).header.map
            Header.keying) = some r.keying)
      (HasChanged e tx s (s.contents.creation? name keyPath autoIncrement)) := by
  have hunchanged : ∀ d, d = e → HasChanged e tx s none d := by
    intro d hd
    have := hasChanged_drafted e tx s none
    rw [Engine.drafted_none h] at this
    rw [hd]
    exact this
  unfold createCollection Contents.creation?
  cases name with
  | text name =>
      refine meets_bind_of_ok (x := name) rfl ?_
      cases hpath : KeyPath.ofValue keyPath with
      | error f => exact meets_fail (meets_throw _ hunchanged)
      | ok path =>
          refine meets_bind_of_ok (x := path) rfl ?_
          dsimp only
          cases hauto : autoIncrement.isTrue && (decide (path = some (.single "")) ||
            path.any KeyPath.isCompound) with
          | true => exact meets_fail (meets_throw _ hunchanged)
          | false =>
              rw [if_neg Bool.false_ne_true, Bool.false_or]
              refine meets_bind_of_ok (read_of_draft h) ?_
              cases hcontains : s.contents.contains name with
              | true => exact meets_fail (meets_throw _ hunchanged)
              | false =>
                  rw [if_neg Bool.false_ne_true]
                  refine meets_bind_of_ok (write_of_draft h _) ?_
                  obtain ⟨scope, hscope, hopen⟩ := meets_openCollection_of_draft
                    (Engine.draft?_redraft h _) (.text name)
                  exact hopen.imp (fun _ hd => hd) (fun r d ⟨hd, hr⟩ => ⟨⟨scope, hd, hscope⟩, hr⟩)
                    fun d hd => ⟨scope, hd, hscope⟩
  | _ => exact meets_fail (meets_throw _ hunchanged)

end Action

namespace EngineCall

open RecordStore.Action (HasChanged hasChanged_drafted)

/-- A call through a transaction with a draft makes the change that is known before. A collection
that it obtains has the keying that the draft then says. -/
theorem meets_run_of_draft {tx : Nat} {c : EngineCall} (hc : c.through? = some tx)
    (h : e.draft? tx = some s) (hmode : (e.transaction tx).mode ≠ .readonly) :
    c.run.Meets (· = e)
      (fun obtained d => HasChanged e tx s (c.change? (e.transaction tx).mode s.contents) d ∧
        ∀ r ∈ obtained, r.transaction = tx ∧ (((s.contents.changed
          (c.change? (e.transaction tx).mode s.contents)).get r.name).header.map Header.keying) =
            some r.keying)
      (HasChanged e tx s (c.change? (e.transaction tx).mode s.contents)) := by
  have hleads {α : Type} {a : Action α} {change : Option (String × Change)}
      (ha : a.Leads e (e.drafted tx s change)) : (obtainsNone a).Meets (· = e)
        (fun obtained d => HasChanged e tx s change d ∧ ∀ r ∈ obtained, r.transaction = tx ∧
          (((s.contents.changed change).get r.name).header.map Header.keying) = some r.keying)
        (HasChanged e tx s change) := by
    refine meets_obtainsNone (ha.imp (fun _ hd => hd) (fun _ _ hd => hd) ?_) ?_
    · rintro _ rfl
      exact hasChanged_drafted _ _ _ _
    · rintro _ _ rfl
      exact ⟨hasChanged_drafted _ _ _ _, nofun⟩
  have hread : (Action.read tx).Keeps (· = e) :=
    leads_of_ending (r := .ok s) (Action.read_of_draft h)
  have hkeeps {α : Type} {a : Action α} (ha : a.Keeps (· = e)) : a.Leads e (e.drafted tx s none) := by
    rw [Engine.drafted_none h]
    exact ha
  cases c with
  | collectionNames id =>
      cases hc
      exact hleads (hkeeps (Action.keeps_collectionNames hread))
  | openCollection id name =>
      cases hc
      obtain ⟨scope, hscope, hopen⟩ := Action.meets_openCollection_of_draft h name
      have hrescoped : e.rescope tx scope = (e.drafted tx s none).rescope tx scope := by
        rw [Engine.drafted_none h]
      refine meets_bind (hopen.imp (fun _ hd => hd) (fun _ _ hd => hd) fun d hd => ?_) fun r =>
        meets_pure fun d hd => ?_
      · exact ⟨scope, hd.trans hrescoped, hscope⟩
      · refine ⟨⟨scope, hd.1.trans hrescoped, hscope⟩, ?_⟩
        rintro _ ⟨⟩
        exact hd.2
  | createCollection id name keyPath autoIncrement =>
      cases hc
      refine meets_bind (Action.meets_createCollection_of_draft h _ _ _) fun r =>
        meets_pure fun d hd => ⟨hd.1, ?_⟩
      rintro _ ⟨⟩
      exact hd.2
  | deleteCollection id name =>
      cases hc
      exact hleads (Action.leads_deleteCollection h name)
  | openIndex r name =>
      cases hc
      exact hleads (hkeeps (StoreRef.keeps_openIndex hread name))
  | createIndex r name keyPath unique multiEntry =>
      cases hc
      exact hleads (StoreRef.leads_createIndex h _ _ _ _)
  | deleteIndex r name =>
      cases hc
      exact hleads (StoreRef.leads_deleteIndex h name)
  | add r value key =>
      cases hc
      exact hleads (StoreRef.leads_write h hmode value key false)
  | put r value key =>
      cases hc
      exact hleads (StoreRef.leads_write h hmode value key true)
  | delete r query =>
      cases hc
      exact hleads (StoreRef.leads_delete h hmode query)
  | clear r =>
      cases hc
      exact hleads (StoreRef.leads_clear h hmode)
  | get r query =>
      cases hc
      exact hleads (hkeeps (StoreRef.keeps_get hread query))
  | count r source query =>
      cases hc
      exact hleads (hkeeps (StoreRef.keeps_count hread source query))
  | indexGet i query =>
      cases hc
      exact hleads (hkeeps (IndexRef.keeps_get hread query))
  | indexGetKey i query =>
      cases hc
      exact hleads (hkeeps (IndexRef.keeps_getKey hread query))
  | startCursor r source query direction keyOnly =>
      cases hc
      exact hleads (hkeeps (CursorRef.keeps_start hread source query direction keyOnly))
  | stepCursor c steps =>
      cases hc
      exact hleads (hkeeps (CursorRef.keeps_step hread steps))
  | updateCursor c value =>
      cases hc
      exact hleads (CursorRef.leads_update h hmode value)
  | deleteAtCursor c =>
      cases hc
      exact hleads (CursorRef.leads_delete h hmode)
  | _ => cases hc

end EngineCall

end Drafting

/-! ### Calls through a transaction without a draft -/

namespace EngineCall

variable {P : Engine → Prop} {tx : Nat}

/-- A call through a transaction without a draft changes nothing that counts. -/
theorem keeps_run_of_no_draft {c : EngineCall} (hc : c.through? = some tx)
    (hP : Engine.IsStable P) : c.run.Keeps fun e => P e ∧ e.draft? tx = none := by
  have hboth := hP.and (Engine.isStable_draft?_eq_none tx)
  refine keeps_run_of_through hc (Action.keeps_read fun _ _ => hboth.observed) (fun change => ?_)
    fun name => ?_
  · refine meets_of_each fun e he => ?_
    exact (Action.leads_write_of_no_draft he.2 change).imp (fun _ hd => hd) (fun _ _ hd => hd ▸ he)
      fun _ hd => hd ▸ he
  · exact (Action.ensures_openCollection (S := fun _ => True) (T := fun _ => True) hboth
      ((Action.keeps_read fun _ _ => hboth.observed).imp (fun _ he => he)
        (fun _ _ he => ⟨he, trivial⟩) fun _ he => he) (fun _ _ _ _ _ => trivial) name).keeps

end EngineCall
end RecordStore
