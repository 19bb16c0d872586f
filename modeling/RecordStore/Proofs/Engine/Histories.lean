import RecordStore.Proofs.Engine.Annals
import RecordStore.Proofs.Engine.FailedWrites

/-!
Runs in which whoever writes has a current handle. A handle is current if its collection still has
the keying that the handle was obtained with; so it is when it was obtained, and so it stays until the
collection is deleted. In such a run each change suits the collection that it was made to.
-/

namespace RecordStore

/-- The collection of a handle has the keying that the handle knows it by. -/
def StoreRef.IsCurrentIn (r : StoreRef) (s : Contents) : Prop :=
  (s.get r.name).header.map Header.keying = some r.keying

instance (r : StoreRef) (s : Contents) : Decidable (r.IsCurrentIn s) :=
  inferInstanceAs (Decidable (_ = _))

namespace StoreRef

variable {r : StoreRef} {s : Contents} {made : Keying → Prop}

theorem keying_apply {c : Collection} {change : Change} (name : String) (hs : change.Suits made c)
    (hdrop : change ≠ .drop) {keying : Keying} (h : c.header.map Header.keying = some keying) :
    (change.apply name c).header.map Header.keying = some keying := by
  cases change with
  | create made =>
      rw [hs.2] at h
      cases h
  | drop => exact absurd rfl hdrop
  | createIndex index spec =>
      rw [Change.apply, Collection.header_createIndex (Prod.mk.eta).symm]
      exact h
  | write other value key overwrite =>
      rw [Change.apply]
      cases hw : c.write name other value key overwrite with
      | mk result d =>
          rcases Collection.write_cases hw with ⟨_, _, hsame⟩ | ⟨_, _, _, _, _, _, _, hsame, _, _, rfl⟩
          · exact hsame.keying.trans h
          · exact hsame.keying.trans h
  | deleteIndex index => exact h
  | delete range => exact h
  | clear => exact h

/-- A handle stays current until its collection is deleted. -/
theorem IsCurrentIn.changed (h : r.IsCurrentIn s) {name : String} {change : Change}
    (hs : change.Suits made (s.get name)) (hdrop : (name, change) ≠ (r.name, .drop)) :
    r.IsCurrentIn (s.changed (some (name, change))) := by
  unfold IsCurrentIn Contents.changed
  by_cases hname : name = r.name
  · subst hname
    rw [Contents.get_set_self]
    exact keying_apply _ hs (fun heq => hdrop (by rw [heq])) h
  · rw [Contents.get_set_of_ne (Ne.symm hname)]
    exact h

end StoreRef

namespace Annals

variable {t : Annals} {c : EngineCall} {tx : Nat} {s : Store} {made : Keying → Prop}

/-- What a caller may do: write through handles that are current, and make collections with certain
keyings only. -/
structure Allows (made : Keying → Prop) (t : Annals) (c : EngineCall) : Prop where
  current : ∀ r value s, c.record? = some (r, value) → t.engine.draft? r.transaction = some s →
    r.IsCurrentIn s.contents
  keying : ∀ tx name keyPath autoIncrement path, c = .createCollection tx name keyPath autoIncrement →
    KeyPath.ofValue keyPath = .ok path → made ⟨path, autoIncrement.isTrue⟩

theorem allows_of_record (hc : ∀ r value, c.record? ≠ some (r, value))
    (hcreate : ∀ tx name keyPath autoIncrement, c ≠ .createCollection tx name keyPath autoIncrement) :
    Allows made t c :=
  ⟨fun r value _ h => absurd h (hc r value), fun _ _ _ _ _ h => absurd h (hcreate _ _ _ _)⟩

theorem allows_of_isCurrentIn {r : StoreRef} {value : Value} (hc : c.record? = some (r, value))
    (hcurrent : ∀ s, t.engine.draft? r.transaction = some s → r.IsCurrentIn s.contents) :
    Allows made t c := by
  refine ⟨fun other v s ho => ?_, ?_⟩
  · cases hc.symm.trans ho
    exact hcurrent s
  · rintro _ _ _ _ _ rfl
    cases hc

/-- Runs of calls that a caller may make. -/
inductive IsReached (made : Keying → Prop) : Annals → Prop
  | start : IsReached made initial
  | next {t : Annals} {c : EngineCall} : t.IsReached made → Allows made t c →
    (t.next c).IsReached made

/-- Each change in the annals suits the collection that it was made to. -/
structure IsSuitable (made : Keying → Prop) (t : Annals) : Prop where
  kept : ∀ path, (t.kept path).IsSuitable made
  work : ∀ id, (t.work id).IsSuitable made

theorem IsSuitable.history (h : t.IsSuitable made) (id : Nat) : (t.history id).IsSuitable made := by
  unfold Annals.history
  split
  · exact h.work id
  · exact h.kept _

/-! ### One call -/

theorem suits_creation (hc : Allows made t c) {name keyPath autoIncrement : Value}
    (h : c = .createCollection tx name keyPath autoIncrement) {change : String × Change}
    (hchange : s.contents.creation? name keyPath autoIncrement = some change) :
    change.2.Suits made (s.contents.get change.1) := by
  unfold Contents.creation? at hchange
  split at hchange
  · next name path hpath =>
    split at hchange
    · cases hchange
    · next hnew =>
      cases hchange
      rw [Bool.or_eq_true, not_or] at hnew
      refine ⟨hc.keying tx _ _ _ path h hpath, ?_⟩
      exact Option.not_isSome_iff_eq_none.1 hnew.2
  · cases hchange

theorem suits_deletion {r : StoreRef} {query : Value} {change : String × Change}
    (h : r.deletion? query = some change) (c : Collection) : change.2.Suits made c := by
  unfold StoreRef.deletion? at h
  split at h
  · cases h
  · split at h
    · cases h
    · cases h
      trivial

/-- What a call that is allowed changes suits its collection. -/
theorem suits_change (hc : Allows made t c) (hthrough : c.through? = some tx)
    (hdraft : t.engine.draft? tx = some s) {mode : Mode} {change : String × Change}
    (h : c.change? mode s.contents = some change) : change.2.Suits made (s.contents.get change.1) := by
  cases c with
  | createCollection id name keyPath autoIncrement => exact suits_creation hc rfl h
  | deleteCollection id name =>
      rw [EngineCall.change?] at h
      split at h
      · cases h
        trivial
      · cases h
  | createIndex r name keyPath unique multiEntry =>
      rw [EngineCall.change?] at h
      split at h
      · unfold StoreRef.indexCreation? at h
        split at h
        · cases h
        · split at h
          · cases h
          · cases h
            trivial
      · cases h
  | deleteIndex r name =>
      rw [EngineCall.change?] at h
      split at h
      · obtain ⟨i, _, rfl⟩ := Option.map_eq_some_iff.1 h
        trivial
      · cases h
  | add r value key =>
      cases hthrough
      cases h
      exact hc.current r value s rfl hdraft
  | put r value key =>
      cases hthrough
      cases h
      exact hc.current r value s rfl hdraft
  | delete r query => exact suits_deletion h _
  | clear r =>
      cases h
      trivial
  | updateCursor cursor value =>
      cases hthrough
      have hcurrent := hc.current cursor.store value s rfl hdraft
      rw [EngineCall.change?, CursorRef.writing?] at h
      split at h
      · cases h
      · split at h
        · cases h
          exact hcurrent
        · split at h
          · cases h
          · cases h
            exact hcurrent
  | deleteAtCursor cursor =>
      rw [EngineCall.change?, CursorRef.deletion?] at h
      split at h
      · cases h
      · exact suits_deletion h _
  | _ => cases h

theorem isSuitable_update {α : Type} [DecidableEq α] {f : α → History} {a : α} {h : History}
    (hf : ∀ x, (f x).IsSuitable made) (hh : h.IsSuitable made) :
    ∀ x, (Function.update f a h x).IsSuitable made :=
  (Function.forall_update_iff f fun _ h => h.IsSuitable made).2 ⟨hh, fun x _ => hf x⟩

theorem isSuitable_workAfter (h : t.IsSuitable made) (ht : t.IsTrue) (hc : Allows made t c) :
    ∀ id, (t.workAfter c id).IsSuitable made := by
  cases hthrough : c.through? with
  | none =>
      cases c with
      | beginOpen path version callback => exact isSuitable_update h.history (h.kept path)
      | _ => first | exact h.history | cases hthrough
  | some tx =>
      cases hdraft : t.engine.draft? tx with
      | none =>
          rw [workAfter_of_no_draft hthrough hdraft]
          exact h.history
      | some s =>
          rw [workAfter_of_draft hthrough hdraft]
          refine isSuitable_update h.history ?_
          cases hchange : c.change? (t.engine.transaction tx).mode s.contents with
          | none => exact h.history _
          | some change =>
              refine ⟨?_, h.history _⟩
              change change.2.Suits made ((t.history (t.worker tx)).contents.get change.1)
              rw [← ht.contents hdraft]
              exact suits_change hc hthrough hdraft hchange

theorem isSuitable_keptAfter (h : t.IsSuitable made) (c : EngineCall) :
    ∀ path, (t.keptAfter c path).IsSuitable made := by
  cases hcommits : c.commits? with
  | some tx =>
      cases hdraft : t.engine.draft? tx with
      | none =>
          rw [keptAfter_of_no_draft hcommits hdraft]
          exact h.kept
      | some s =>
          rw [keptAfter_of_draft hcommits hdraft]
          exact isSuitable_update h.kept (h.history _)
  | none =>
      cases c with
      | deleteStore path callback =>
          cases hdelete : Action.deleteStore path callback t.engine with
          | ok old d =>
              simp only [keptAfter, hdelete]
              exact isSuitable_update h.kept trivial
          | error f d =>
              simp only [keptAfter, hdelete]
              exact h.kept
      | _ =>
          unfold keptAfter
          rw [hcommits]
          exact h.kept

/-! ### Runs -/

/-- The invariant of runs. -/
structure IsRecorded (made : Keying → Prop) (t : Annals) : Prop where
  isTrue : t.IsTrue
  isOrderly : t.engine.IsOrderly
  isSuitable : t.IsSuitable made

theorem isRecorded_next (h : t.IsRecorded made) (hc : Allows made t c) : (t.next c).IsRecorded made where
  isTrue := isTrue_next h.isTrue h.isOrderly c
  isOrderly := Effect.Meets.after c.isOrderly_run h.isOrderly
  isSuitable := ⟨isSuitable_keptAfter h.isSuitable c, isSuitable_workAfter h.isSuitable h.isTrue hc⟩

theorem isRecorded_of_isReached (h : t.IsReached made) : t.IsRecorded made := by
  induction h with
  | start => exact ⟨isTrue_initial, Engine.isOrderly_initial, fun _ => trivial, fun _ => trivial⟩
  | next _ hc ih => exact isRecorded_next ih hc

/-! ### Calls through a transaction with a draft -/

section Drafting

variable (h : t.IsRecorded made) (hc : c.through? = some tx) (hdraft : t.engine.draft? tx = some s)

include h hc hdraft

theorem hasChanged_next : Action.HasChanged t.engine tx s
    (c.change? (t.engine.transaction tx).mode s.contents) (t.next c).engine :=
  Effect.Meets.after ((EngineCall.meets_run_of_draft hc hdraft
    (h.isOrderly.mode_ne_readonly hdraft)).imp (fun _ hd => hd) (fun _ _ hd => hd.1) fun _ hd => hd) rfl

theorem draft?_next : (t.next c).engine.draft? tx =
    some (s.changed (c.change? (t.engine.transaction tx).mode s.contents)) := by
  obtain ⟨scope, heq, _⟩ := (hasChanged_next h hc hdraft).eq
  rw [heq]
  exact Engine.draft?_rescope (Engine.draft?_redraft hdraft _) scope

theorem worker_next : (t.next c).worker tx = t.worker tx := by
  obtain ⟨scope, heq, _⟩ := (hasChanged_next h hc hdraft).eq
  have hactive := (Engine.draft?_eq_some_iff.1 hdraft).active
  unfold worker
  rw [heq, Engine.transaction_rescope (e := t.engine.drafted tx s _) hactive]
  rfl

theorem history_next : (t.next c).history ((t.next c).worker tx) =
    (c.change? (t.engine.transaction tx).mode s.contents).toList ++ t.history (t.worker tx) := by
  rw [history_of_draft (draft?_next h hc hdraft), worker_next h hc hdraft]
  change t.workAfter c (t.worker tx) = _
  rw [workAfter_of_draft hc hdraft, Function.update_self]

/-- A handle is current in the draft when it is obtained. -/
theorem isCurrentIn_of_obtained {r : StoreRef} {d : Engine}
    (hrun : c.run t.engine = .ok (some r) d) : r.transaction = tx ∧
      r.IsCurrentIn (s.changed (c.change? (t.engine.transaction tx).mode s.contents)).contents :=
  ((EngineCall.meets_run_of_draft hc hdraft (h.isOrderly.mode_ne_readonly hdraft)).of_ok rfl
    hrun).2 r rfl

omit h in
/-- A handle stays current in the draft until its collection is deleted. -/
theorem isCurrentIn_next (hallows : Allows made t c) {r : StoreRef} (hr : r.IsCurrentIn s.contents)
    (hdrop : c.change? (t.engine.transaction tx).mode s.contents ≠ some (r.name, .drop)) :
    r.IsCurrentIn (s.changed (c.change? (t.engine.transaction tx).mode s.contents)).contents := by
  cases hchange : c.change? (t.engine.transaction tx).mode s.contents with
  | none => exact hr
  | some change =>
      rw [hchange] at hdrop
      exact hr.changed (suits_change hallows hc hdraft hchange) fun heq => hdrop (congrArg some heq)

end Drafting

end Annals
end RecordStore
