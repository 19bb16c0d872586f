import RecordStore.Proofs.Engine.Bodies

/-!
Reads through a handle. A read that succeeds would succeed again and read the same; what is found in a
source, or counted, is told by the collection that is read.
-/

namespace RecordStore

open Effect

variable {e d : Engine} {tx : Nat} {s : Store} {c : Collection} {r : StoreRef} {query : Value}
  {range : Option (KeyRange Value)}

/-- Only an active transaction of an open connection can read. -/
theorem Action.hasUnderWay_of_read (h : read tx e = .ok s d) : ∃ w, e.HasUnderWay tx w := by
  have hactive : (e.transaction tx).isActive = true := by
    by_contra hinactive
    have hfails : ensureActive tx e = .error (.store .transactionInactive) e := by
      rw [ensureActive_run, if_neg hinactive]
    rw [read, bind_of_error hfails] at h
    cases h
  have hopen : (e.connection (e.transaction tx).connection).isClosed = false := by
    by_contra hclosed
    have hfinds : ensureActive tx e = .ok (e.transaction tx) e := by rw [ensureActive_run, if_pos hactive]
    have hfails : statement (e.transaction tx) e = .error (.argument .connectionGone) e := by
      rw [statement_run, if_pos (Bool.not_eq_false _ ▸ hclosed)]
    rw [read, bind_of_ok hfinds, bind_of_error hfails] at h
    cases h
  exact ⟨_, hactive, hopen, rfl⟩

/-- A read that succeeds would succeed again, would read the same and change nothing. -/
theorem Action.read_again (h : read tx e = .ok s d) : read tx d = .ok s d := by
  obtain ⟨w, hw⟩ := hasUnderWay_of_read h
  cases w with
  | idle =>
      have hidle : read tx e = .ok (e.store (e.connection (e.transaction tx).connection).path) e := by
        unfold read
        rw [bind_of_ok (ensureActive_of_hasUnderWay hw), bind_of_ok (statement_of_hasUnderWay hw)]
        simp only [hw.work]
        rfl
      cases hidle.symm.trans h
      exact h
  | writing draft =>
      cases (read_of_draft (Engine.draft?_eq_some_iff.2 hw)).symm.trans h
      exact h
  | reading snapshot =>
      cases snapshot with
      | some seen =>
          cases (read_of_seen hw).symm.trans h
          exact h
      | none =>
          -- the first read takes the snapshot that the second one finds
          cases (read_of_unread hw).symm.trans h
          exact read_of_seen (hw.rework _)

theorem StoreRef.exists_read_of_collection (h : r.collection e = .ok c d) :
    ∃ s, Action.read r.transaction e = .ok s d ∧ s.contents.get r.name = c := by
  unfold collection at h
  cases hread : Action.read r.transaction e with
  | error f t =>
      rw [bind_of_error hread] at h
      cases h
  | ok s t =>
      rw [bind_of_ok hread] at h
      cases h
      exact ⟨s, rfl, rfl⟩

theorem StoreRef.collection_again (h : r.collection e = .ok c d) : r.collection d = .ok c d := by
  obtain ⟨s, hread, rfl⟩ := exists_read_of_collection h
  unfold collection
  rw [bind_of_ok (Action.read_again hread)]
  rfl

theorem CursorRef.step_run {r : CursorRef} (h : r.store.collection e = .ok c d) {count : Nat}
    (hcount : count - 1 ≤ maxOffset) : r.step count e =
      .ok ((r.cursor.step c count).1, { r with cursor := (r.cursor.step c count).2 }) d := by
  unfold step
  rw [bind_of_ok h, if_neg (Nat.not_lt.2 hcount)]
  rfl

/-! ### Reads of a range -/

section Ranges

variable (hread : r.collection e = .ok c d) (hrange : KeyRange.ofQuery query = .ok range)

include hread hrange

theorem StoreRef.count_run (source : Option String) : r.count source query e =
    .ok (Scan.selected (KeyRange.conditionsOf range) (c.rows source)).length d := by
  unfold count
  rw [bind_of_ok (conditions_of_range hrange e), bind_of_ok hread]
  rfl

theorem StoreRef.get_run (hquery : query.isNull = false) :
    r.get query e = ending (c.get none (KeyRange.conditionsOf range)) d := by
  unfold get
  rw [hquery, if_neg Bool.false_ne_true]
  refine (bind_of_ok (conditions_of_range hrange e) _).trans ?_
  rw [bind_of_ok hread, ofExcept_run]

/-- A cursor starts with a step from before its first row, and is there if it can show where it came. -/
theorem CursorRef.start_run (source : Option String) (dir : Direction) (keyOnly : Bool) :
    start r source query (.text dir.name) keyOnly e = ending
      (((Cursor.start source (KeyRange.conditionsOf range) dir keyOnly).step c 1).1.map fun _ =>
        ⟨r, ((Cursor.start source (KeyRange.conditionsOf range) dir keyOnly).step c 1).2⟩) d := by
  have hdirection : Direction.ofValue? (.text dir.name) = some dir := by cases dir <;> rfl
  unfold start
  rw [bind_of_ok (StoreRef.conditions_of_range hrange e), hdirection]
  dsimp only
  rw [bind_of_ok (step_run hread (Nat.zero_le _))]
  cases ((Cursor.start source (KeyRange.conditionsOf range) dir keyOnly).step c 1).1 with
  | error f => rfl
  | ok u => rfl

theorem IndexRef.get_run (name : String) (spec : IndexSpec) : IndexRef.get ⟨r, name, spec⟩ query e =
    ending (c.get (some name) (KeyRange.conditionsOf range)) d := by
  unfold get
  rw [bind_of_ok (StoreRef.conditions_of_range hrange e), bind_of_ok hread, ofExcept_run]

theorem IndexRef.getKey_run (name : String) (spec : IndexSpec) :
    IndexRef.getKey ⟨r, name, spec⟩ query e =
      ending (c.getKey (some name) (KeyRange.conditionsOf range)) d := by
  unfold getKey
  rw [bind_of_ok (StoreRef.conditions_of_range hrange e), bind_of_ok hread, ofExcept_run]

end Ranges

end RecordStore
