import RecordStore.Proofs.Engine.Histories
import RecordStore.Proofs.Query.Passage

/-!
Queries as calls. All that a query does to the engine are calls that a caller could make one by one, and
whatever it writes it writes through the handle that its own transaction obtained, which is current in the
draft of the transaction as long as the query runs. So what is kept by every call of a caller with current
handles is kept by queries, and by each part of a query.
-/

namespace RecordStore

open Effect

/-- Whoever writes a record to a collection of some name, and has a draft for it, has a current handle. -/
def EngineCall.WritesCurrently (name : String) (e : Engine) (c : EngineCall) : Prop :=
  ∀ r value s, c.record? = some (r, value) → r.name = name → e.draft? r.transaction = some s →
    r.IsCurrentIn s.contents

/-- A property that every call of a caller with current handles keeps. -/
structure Engine.IsKeptByCalls (P : Engine → Prop) : Prop where
  isReachable {e : Engine} : P e → e.IsReachable
  call {e : Engine} (c : EngineCall) : P e → (∀ name, c.WritesCurrently name e) → P (c.run.after e)

namespace EngineCall

variable {e d : Engine} {c : EngineCall} {tx : Nat} {s : Store} {r : StoreRef}

theorem writesCurrently_of_record (hc : c.record? = none) (name : String) (e : Engine) :
    c.WritesCurrently name e := by
  intro r value s h
  rw [hc] at h
  cases h

theorem writesCurrently_of_isCurrentIn {value : Value} (hc : c.record? = some (r, value))
    (hcurrent : ∀ s ∈ e.draft? r.transaction, r.IsCurrentIn s.contents) (name : String) :
    c.WritesCurrently name e := by
  intro other v s h _ hs
  cases hc.symm.trans h
  exact hcurrent s hs

/-! ### Drafts after calls -/

section Drafts

variable (hc : c.through? = some tx)

include hc

theorem draft?_after_of_none (hs : e.draft? tx = none) : (c.run.after e).draft? tx = none :=
  ((keeps_run_of_no_draft hc Engine.isStable_true).after ⟨trivial, hs⟩).2

variable (he : e.IsReachable)

include he

theorem draft?_after (hs : e.draft? tx = some s) : (c.run.after e).draft? tx =
    some (s.changed (c.change? (e.transaction tx).mode s.contents)) := by
  have hmode := (Engine.isOrderly_of_isReachable he).mode_ne_readonly hs
  obtain ⟨scope, hafter, _⟩ := (((meets_run_of_draft hc hs hmode).imp (fun _ hd => hd)
    (fun _ _ hd => hd.1) fun _ hd => hd).after rfl).eq
  rw [hafter]
  exact Engine.draft?_rescope (Engine.draft?_redraft hs _) scope

/-- A handle is current in the draft when it is obtained. -/
theorem isCurrentIn_of_obtained (hrun : c.run e = .ok (some r) d)
    (hs : d.draft? r.transaction = some s) : r.transaction = tx → r.IsCurrentIn s.contents := by
  rintro rfl
  cases hdraft : e.draft? r.transaction with
  | none =>
      have hnone := draft?_after_of_none hc hdraft
      rw [after_of_ok hrun, hs] at hnone
      cases hnone
  | some s' =>
      have hmode := (Engine.isOrderly_of_isReachable he).mode_ne_readonly hdraft
      have hsome := draft?_after hc he hdraft
      rw [after_of_ok hrun, hs] at hsome
      cases hsome
      exact (((meets_run_of_draft hc hdraft hmode).of_ok rfl hrun).2 r rfl).2

end Drafts

end EngineCall

theorem Action.transaction_of_openCollection {e d : Engine} {tx : Nat} {name : Value} {r : StoreRef}
    (h : openCollection tx name e = .ok r d) : r.transaction = tx := by
  have hread : (read tx).Ensures (fun _ => True) fun _ => True :=
    (keeps_read fun _ _ _ _ => trivial).ensures fun _ _ _ _ => trivial
  rw [openCollection_eq] at h
  obtain ⟨t, _, _, h⟩ := exists_of_bind h
  obtain ⟨scope, _, _, h⟩ := exists_of_bind h
  obtain ⟨_, b, _, h⟩ := exists_of_bind h
  exact ((ensures_openIn hread name scope).of_ok trivial h).2.1

/-! ### A current handle -/

/-- States with a property in which a handle is current, if its transaction has a draft. -/
def StoreRef.HoldsIn (r : StoreRef) (P : Engine → Prop) (e : Engine) : Prop :=
  P e ∧ ∀ s, e.draft? r.transaction = some s → r.IsCurrentIn s.contents

section

variable {P : Engine → Prop} (hP : Engine.IsKeptByCalls P)

include hP

/-- A call that writes through no other handle, and changes nothing but what it writes, leaves the
handle current. -/
theorem EngineCall.keeps_holdsIn {c : EngineCall} {r : StoreRef} (hc : c.through? = some r.transaction)
    (hrecord : ∀ other value, c.record? = some (other, value) → other = r)
    (hchange : ∀ mode s change, c.change? mode s = some change →
      ∃ value key overwrite, change = r.writing value key overwrite) :
    c.run.Keeps (r.HoldsIn P) := by
  refine keeps_iff_after.2 fun e he => ⟨hP.call c he.1 fun name other value s h _ hs => ?_, fun s hs => ?_⟩
  · obtain rfl := hrecord other value h
    exact he.2 s hs
  · cases hdraft : e.draft? r.transaction with
    | none =>
        rw [draft?_after_of_none hc hdraft] at hs
        cases hs
    | some s' =>
        have hcurrent := he.2 s' hdraft
        rw [draft?_after hc (hP.isReachable he.1) hdraft] at hs
        cases hs
        cases hmade : c.change? (e.transaction r.transaction).mode s'.contents with
        | none => exact hcurrent
        | some change =>
            obtain ⟨value, key, overwrite, rfl⟩ := hchange _ _ change hmade
            have hsuits : (Change.write r.keying value key overwrite).Suits (fun _ => True)
                (s'.contents.get r.name) := hcurrent
            exact hcurrent.changed hsuits nofun

/-- So does an action that is a call. -/
theorem StoreRef.keeps_of_call {α : Type} {a : Action α} {c : EngineCall} {r : StoreRef}
    (hrun : c.run = EngineCall.obtainsNone a) (hc : c.through? = some r.transaction)
    (hrecord : ∀ other value, c.record? = some (other, value) → other = r)
    (hchange : ∀ mode s change, c.change? mode s = some change →
      ∃ value key overwrite, change = r.writing value key overwrite) : a.Keeps (r.HoldsIn P) := by
  refine keeps_iff_after.2 fun e he => ?_
  have hafter := (EngineCall.keeps_holdsIn hP hc hrecord hchange).after he
  rwa [hrun, EngineCall.obtainsNone, after_map a fun _ => none] at hafter

/-- Reading through a handle. -/
theorem StoreRef.keeps_of_read {α : Type} {a : Action α} {c : EngineCall} {r : StoreRef}
    (hrun : c.run = EngineCall.obtainsNone a) (hc : c.through? = some r.transaction)
    (hrecord : c.record? = none) (hchange : ∀ mode s, c.change? mode s = none) :
    a.Keeps (r.HoldsIn P) :=
  StoreRef.keeps_of_call hP hrun hc (by rw [hrecord]; nofun) fun mode s _ h => by
    rw [hchange] at h
    cases h

/-- An action that is a call without a record. -/
theorem Action.keeps_of_call {α : Type} {a : Action α} {c : EngineCall}
    (hrun : c.run = EngineCall.obtainsNone a) (hrecord : c.record? = none) : a.Keeps P := by
  refine keeps_iff_after.2 fun e he => ?_
  have hafter := hP.call c he fun name => EngineCall.writesCurrently_of_record hrecord name e
  rwa [hrun, EngineCall.obtainsNone, after_map a fun _ => none] at hafter

theorem StoreRef.keeps_collection_of_calls (r : StoreRef) : r.collection.Keeps (r.HoldsIn P) := by
  have hnames : (Action.collectionNames r.transaction).Keeps (r.HoldsIn P) :=
    StoreRef.keeps_of_read hP (c := .collectionNames r.transaction) rfl rfl rfl fun _ _ => rfl
  refine StoreRef.keeps_collection (keeps_iff_after.2 fun e he => ?_)
  have hafter := hnames.after he
  rwa [Action.collectionNames, after_map (Action.read r.transaction)] at hafter

/-- A collection that is obtained has a current handle. -/
theorem Action.meets_openCollection_of_calls (tx : Nat) (name : Value) :
    (openCollection tx name).Meets P (fun r e => r.HoldsIn P e) P := by
  have hkeeps : (openCollection tx name).Keeps P := by
    refine keeps_iff_after.2 fun e he => ?_
    have hafter := hP.call (.openCollection tx name) he fun name =>
      EngineCall.writesCurrently_of_record rfl name e
    rwa [EngineCall.run, after_map (openCollection tx name) some] at hafter
  intro e he
  cases hopen : openCollection tx name e with
  | error f d => exact hkeeps.of_error he hopen
  | ok r d =>
      refine ⟨hkeeps.of_ok he hopen, fun s hs => ?_⟩
      have hrun : (EngineCall.openCollection tx name).run e = .ok (some r) d := bind_of_ok hopen _
      exact EngineCall.isCurrentIn_of_obtained rfl (hP.isReachable he) hrun hs
        (Action.transaction_of_openCollection hopen)

end

/-! ### Queries -/

namespace CursorRef

variable {r next : CursorRef} {e d : Engine}

theorem store_of_step {count : Nat} {result : Except Failure Unit}
    (h : r.step count e = .ok (result, next) d) : next.store = r.store := by
  obtain ⟨c, _, _, h⟩ := exists_of_bind h
  obtain ⟨_, h⟩ := passed_of_guard h
  cases h
  rfl

theorem store_of_start {store : StoreRef} {source : Option String} {query direction : Value}
    {keyOnly : Bool} (h : start store source query direction keyOnly e = .ok r d) :
    r.store = store := by
  obtain ⟨conditions, _, _, h⟩ := exists_of_bind h
  cases hdirection : Direction.ofValue? direction with
  | none =>
      rw [hdirection] at h
      cases h
  | some dir =>
      rw [hdirection] at h
      obtain ⟨⟨result, next⟩, _, hstep, h⟩ := exists_of_bind h
      obtain ⟨_, _, _, h⟩ := exists_of_bind h
      cases h
      exact store_of_step hstep

end CursorRef

namespace Query

variable {P : Engine → Prop} (hP : Engine.IsKeptByCalls P)

include hP

theorem ensures_step (r : CursorRef) (count : Nat) : (r.step count).Ensures (r.store.HoldsIn P)
    fun x => x.2.store = r.store :=
  (StoreRef.keeps_of_read hP (c := .stepCursor r count) rfl rfl rfl fun _ _ => rfl).ensures
    fun _ _ _ h => CursorRef.store_of_step h

theorem keeps_update_of_calls (r : CursorRef) (v : Value) : (r.update v).Keeps (r.store.HoldsIn P) := by
  refine StoreRef.keeps_of_call hP (c := .updateCursor r v) rfl rfl ?_ ?_
  · rintro _ _ ⟨⟩
    rfl
  · intro mode s change h
    rw [EngineCall.change?, CursorRef.writing?] at h
    split at h
    · cases h
    split at h
    · cases h
      exact ⟨_, _, _, rfl⟩
    split at h
    · cases h
    · cases h
      exact ⟨_, _, _, rfl⟩

/-- However far a query comes, what every call keeps is kept. -/
theorem keeps_traverse_of_calls (q : Query) (visits : Nat) (r : CursorRef) (passed : Nat) :
    (q.traverse visits r passed).Keeps (r.store.HoldsIn P) := by
  induction visits generalizing r passed with
  | zero => exact keeps_throw _
  | succ n ih =>
      have hstep {α : Type} (count : Nat) (rest : CursorRef → Action α)
          (hrest : ∀ next : CursorRef, next.store = r.store → (rest next).Keeps (r.store.HoldsIn P)) :
          Keeps (r.store.HoldsIn P) (do
            let stepped ← r.step count
            ofExcept stepped.1
            rest stepped.2) :=
        ensures_bind (ensures_step hP r count) fun x hx =>
          keeps_bind (keeps_ofExcept _) fun _ => hrest x.2 hx
      have hnext (next : CursorRef) (hsame : next.store = r.store) (passed : Nat) :
          (q.traverse n next passed).Keeps (r.store.HoldsIn P) := hsame ▸ ih next passed
      have hgoOn (taken : List Value) : (q.goOn n r passed taken).Keeps (r.store.HoldsIn P) :=
        hstep 1 (fun next => do return taken ++ (← q.traverse n next (passed + taken.length)))
          fun next hsame => keeps_bind (hnext next hsame _) fun _ => keeps_pure _
      have hmodify (v : Value) : (q.modify r v).Keeps (r.store.HoldsIn P) := by
        unfold modify
        split
        · exact keeps_pure _
        · exact keeps_pure _
        · exact keeps_bind (keeps_ofExcept _) fun m =>
            keeps_bind (keeps_update_of_calls hP r m) fun _ => keeps_pure _
      rw [traverse]
      refine meets_ite (fun _ => keeps_pure _) fun _ => meets_ite (fun _ => ?_) fun _ =>
        meets_ite (fun _ => keeps_pure _) fun _ => keeps_bind (keeps_ofExcept _) fun matched => ?_
      · exact hstep q.skip _ fun next hsame => hnext next hsame _
      · refine meets_ite (fun _ => ?_) fun _ => hgoOn []
        exact keeps_bind (hmodify _) fun _ => keeps_bind (keeps_ofExcept _) fun w => hgoOn [w]

theorem keeps_scan_of_calls (q : Query) (tx : Nat) (query : Value) : (q.scan tx query).Keeps P := by
  rw [scan_eq]
  refine meets_bind (Action.meets_openCollection_of_calls hP tx q.collection) fun store => ?_
  have hdone {α : Type} {a : Action α} (ha : a.Keeps (store.HoldsIn P)) :
      a.Meets (store.HoldsIn P) (fun _ e => P e) P :=
    ha.imp (fun _ he => he) (fun _ _ he => he.1) fun _ he => he.1
  refine hdone (keeps_bind ?_ fun source => ?_)
  · exact meets_ite (fun _ => keeps_pure _) fun _ => keeps_bind
      (StoreRef.keeps_of_read hP (c := .openIndex store q.index) rfl rfl rfl fun _ _ => rfl)
      fun _ => keeps_pure _
  · refine meets_ite (fun _ => keeps_bind (StoreRef.keeps_of_read hP
      (c := .count store source query) rfl rfl rfl fun _ _ => rfl) fun _ => keeps_pure _) fun _ => ?_
    have hstart := (StoreRef.keeps_of_read hP (a := CursorRef.start store source query
      (.text q.direction.name) (q.state == .keys)) (c := .startCursor store source query
        (.text q.direction.name) (q.state == .keys)) rfl rfl rfl fun _ _ => rfl).ensures
          (T := fun r => r.store = store) fun _ _ _ h => CursorRef.store_of_start h
    refine ensures_bind hstart fun r hr => keeps_bind ?_ fun _ => keeps_bind ?_ fun _ => keeps_pure _
    · exact StoreRef.keeps_collection_of_calls hP store
    · exact hr ▸ keeps_traverse_of_calls hP q _ r 0

/-- What every call of a caller with current handles keeps, queries keep. -/
theorem keeps_run_of_calls (q : Query) (db : Nat) (query : Value) : (q.run db query).Keeps P := by
  refine keeps_bind (Action.keeps_of_call hP (c := .openTransaction db _ _) rfl rfl) fun tx => ?_
  refine keeps_bind (Action.keeps_of_call hP (c := .begin tx) rfl rfl) fun _ => ?_
  refine keeps_bind (keeps_attempt (keeps_scan_of_calls hP q tx query)) fun result => ?_
  cases result with
  | ok result =>
      exact keeps_bind (Action.keeps_of_call hP (c := .commit tx) rfl rfl) fun _ => keeps_pure _
  | error f =>
      exact keeps_bind (Action.keeps_of_call hP (c := .abort tx _) rfl rfl) fun _ => keeps_throw _

end Query
end RecordStore
