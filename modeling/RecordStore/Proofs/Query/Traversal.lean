import RecordStore.Proofs.Collection.Scanning
import RecordStore.Proofs.Engine.Reading
import RecordStore.Query.Run

/-!
What a query yields for the rows that its cursor has before it. The counter of a query means rows
until it has passed over those to be skipped, and matches from then on; so the query comes to its
limit just when it has taken what its window takes.
-/

namespace RecordStore

open Effect

/-- A value meets a filter that can tell. -/
def Filter.accepts (f : Filter) (v : Value) : Bool :=
  match f.holds v with
  | .ok (b, _) => b
  | .error _ => false

namespace Query

def accepts (q : Query) (v : Value) : Bool := q.filters.all (·.accepts v)

/-- What the function of a query makes of a value. -/
def yield (q : Query) (v : Value) : Value :=
  match q.map v with
  | .ok w => w
  | .error _ => .null

/-- What a query still takes of the values that it accepts, after so many rows were skipped or
taken. -/
def takeFrom {α : Type} (q : Query) (passed : Nat) (vs : List α) : List α :=
  match q.window with
  | none => vs
  | some w => vs.take (w.skip + w.take - passed)

/-- What a query yields for the values that it looks at: it skips some, of those that it accepts it
takes what its window takes, and it maps them. -/
def yieldAll (q : Query) (vs : List Value) : List Value :=
  let accepted := (vs.drop q.skip).filter q.accepts
  let taken := match q.window with
    | none => accepted
    | some w => accepted.take w.take
  taken.map q.yield

/-- The filters and the function of a query fail for no value of some, and change none. -/
structure IsPureOn (q : Query) (v : Value) : Prop where
  filters : ∀ f ∈ q.filters, ∃ b, f.holds v = .ok (b, v)
  mapper : ∀ f ∈ q.mapper, ∃ o, f.call v = .ok (o, v)

/-- What a query looks at in a row: the key, or the stored record. -/
def LooksAt (q : Query) (c : Collection) (e : Entry) (v : Value) : Prop :=
  if q.state = .keys then Key.decode e.1 = .ok v else c.load e.2 = .ok v

variable {q : Query} {c : Collection} {v : Value} {vs : List Value}

theorem allHold_of_isPureOn (h : q.IsPureOn v) :
    Filter.allHold q.filters v = .ok (q.accepts v, v) := by
  have hall (fs : List Filter) (hfs : ∀ f ∈ fs, ∃ b, f.holds v = .ok (b, v)) :
      Filter.allHold fs v = .ok (fs.all (·.accepts v), v) := by
    induction fs with
    | nil => rfl
    | cons f rest ih =>
        obtain ⟨b, hb⟩ := hfs f List.mem_cons_self
        rw [Filter.allHold, List.all_cons, Filter.accepts, hb]
        cases b with
        | false => rfl
        | true => exact ih fun g hg => hfs g (List.mem_cons_of_mem f hg)
  exact hall q.filters h.filters

theorem map_of_isPureOn (h : q.IsPureOn v) : q.map v = .ok (q.yield v) := by
  have hmap : ∃ w, q.map v = .ok w := by
    unfold map
    cases hmapper : q.mapper with
    | none => exact ⟨v, rfl⟩
    | some f =>
        obtain ⟨o, ho⟩ := h.mapper f hmapper
        dsimp only
        rw [ho]
        exact ⟨_, rfl⟩
  obtain ⟨w, hw⟩ := hmap
  rw [yield, hw]

theorem modify_of_not_isWriting (h : q.isWriting = false) (r : CursorRef) (v : Value) :
    q.modify r v = pure v := by
  unfold modify
  unfold isWriting at h
  cases hrule : q.rule with
  | none => rfl
  | some rule =>
      cases rule with
      | nil => rfl
      | cons _ _ => rw [hrule] at h; cases h

section Windows

variable {α : Type} {x : α} {xs : List α}

theorem takeFrom_nil (q : Query) (passed : Nat) : q.takeFrom passed ([] : List α) = [] := by
  unfold takeFrom
  cases q.window with
  | none => rfl
  | some w => exact List.take_nil

theorem takeFrom_of_isFull {passed : Nat} (h : q.isFull passed = true) : q.takeFrom passed xs = [] := by
  obtain ⟨w, hwindow, hle⟩ := (Option.any_eq_true _ _).1 h
  rw [takeFrom, hwindow]
  dsimp only
  rw [Nat.sub_eq_zero_of_le (of_decide_eq_true hle), List.take_zero]

theorem takeFrom_cons {passed : Nat} (h : q.isFull passed = false) :
    q.takeFrom passed (x :: xs) = x :: q.takeFrom (passed + 1) xs := by
  unfold takeFrom
  unfold isFull at h
  cases hwindow : q.window with
  | none => rfl
  | some w =>
      rw [hwindow, Option.any_some, decide_eq_false_iff_not, not_le] at h
      dsimp only
      rw [show w.skip + w.take - passed = w.skip + w.take - (passed + 1) + 1 by omega,
        List.take_succ_cons]

/-- Once the rows to be skipped are passed over, a query takes what its window takes. -/
theorem takeFrom_skip (q : Query) (xs : List α) : q.takeFrom q.skip xs =
    match q.window with
    | none => xs
    | some w => xs.take w.take := by
  unfold takeFrom skip
  cases q.window with
  | none => rfl
  | some w =>
      dsimp only [Option.map_some, Option.getD_some]
      rw [Nat.add_sub_cancel_left]

end Windows

/-- What a query looks at in the row that its cursor shows. -/
theorem subject_of_looksAt {cur : Cursor} {e : Entry} (hkeyOnly : cur.keyOnly = (q.state == .keys))
    (hkey : Key.decode e.1 = .ok cur.key) (hvalue : cur.keyOnly = false → c.load e.2 = .ok cur.value)
    (h : q.LooksAt c e v) : q.subject cur = v := by
  unfold LooksAt at h
  unfold subject
  split at h
  · next hkeys =>
    rw [if_pos hkeys]
    rw [hkey] at h
    exact Except.ok.inj h
  · next hkeys =>
    rw [if_neg hkeys]
    rw [hvalue (by rw [hkeyOnly]; exact beq_eq_false_iff_ne.2 hkeys)] at h
    exact Except.ok.inj h

/-! ### The loop -/

section Loop

variable {e : Engine} {store : StoreRef} {origin : Cursor} {r : CursorRef} {rest : List Entry}

/-- How a query goes on from a row with what it has taken of it. -/
def goOn (q : Query) (visits : Nat) (r : CursorRef) (passed : Nat) (taken : List Value) :
    Action (List Value) := do
  let (result, next) ← r.step 1
  ofExcept result
  let others ← q.traverse visits next (passed + taken.length)
  return taken ++ others

theorem goOn_run (hread : r.store.collection e = .ok c e) {next : Cursor}
    (hstep : r.cursor.step c 1 = (.ok (), next)) {visits passed : Nat} {taken others : List Value}
    (hothers : q.traverse visits { r with cursor := next } (passed + taken.length) e =
      .ok others e) : q.goOn visits r passed taken e = .ok (taken ++ others) e := by
  unfold goOn
  rw [bind_of_ok (CursorRef.step_run hread (Nat.zero_le _)), hstep]
  refine (bind_of_ok (x := ()) (t := e) rfl _).trans ?_
  rw [bind_of_ok hothers]
  rfl

theorem traverse_run_of_isDone (hdone : r.cursor.isDone = true) (visits passed : Nat) :
    q.traverse (visits + 1) r passed e = .ok [] e := by
  rw [traverse, if_pos hdone]
  rfl

variable (hwriting : q.isWriting = false) (hread : store.collection e = .ok c e)
  (hrows : (c.rows origin.source).Pairwise fun a b => Entry.lt a b = true)
  (hshow : ∀ row ∈ origin.visits c, c.CanShow row)
  (hkeyOnly : origin.keyOnly = (q.state == .keys))
  (hpure : ∀ row ∈ origin.visits c, ∀ v, q.LooksAt c row v → q.IsPureOn v)

include hwriting hread hrows hshow hkeyOnly hpure

/-- Once the rows to be skipped are passed over, a query takes of the rows that are left. -/
theorem traverse_run_of_skipped {visits passed : Nat} (hr : Cursor.IsAt origin r.cursor c rest)
    (hstore : r.store = store) (hvisits : rest.length < visits) (hskipped : q.skip ≤ passed)
    (hvs : List.Forall₂ (q.LooksAt c) rest vs) :
    q.traverse visits r passed e =
      .ok ((q.takeFrom passed (vs.filter q.accepts)).map q.yield) e := by
  induction hvs generalizing r visits passed with
  | nil =>
      obtain ⟨n, rfl⟩ := Nat.exists_eq_add_one_of_ne_zero hvisits.ne'
      rw [List.filter_nil, takeFrom_nil]
      exact traverse_run_of_isDone hr.stands n passed
  | @cons row v rest vs hv hvs ih =>
      obtain ⟨n, rfl⟩ := Nat.exists_eq_add_one_of_ne_zero (Nat.ne_of_gt (Nat.zero_lt_of_lt hvisits))
      obtain ⟨hdone, hposition, hkey, hvalue⟩ := hr.stands
      have hsubject : q.subject r.cursor = v :=
        subject_of_looksAt (hr.same.keyOnly.trans hkeyOnly) hkey hvalue hv
      have hpurev := hpure row (hr.suffix.subset List.mem_cons_self) v hv
      obtain ⟨next, hstep, hnext⟩ := Cursor.exists_step hrows hshow hr Nat.one_pos
      have hothers (passed : Nat) (hskipped : q.skip ≤ passed) :
          q.traverse n { r with cursor := next } passed e =
            .ok ((q.takeFrom passed (vs.filter q.accepts)).map q.yield) e :=
        ih hnext hstore (Nat.lt_of_succ_lt_succ hvisits) hskipped
      have hgoOn (taken : List Value) : q.goOn n r passed taken e = .ok (taken ++
          (q.takeFrom (passed + taken.length) (vs.filter q.accepts)).map q.yield) e :=
        goOn_run (hstore ▸ hread) hstep (hothers _ (hskipped.trans (Nat.le_add_right _ _)))
      rw [traverse, if_neg (by rw [hdone]; exact Bool.false_ne_true), if_neg (Nat.not_lt.2 hskipped)]
      cases hfull : q.isFull passed with
      | true =>
          rw [if_pos rfl, takeFrom_of_isFull hfull]
          rfl
      | false =>
          rw [if_neg Bool.false_ne_true, hsubject, allHold_of_isPureOn hpurev]
          refine (bind_of_ok (x := (q.accepts v, v)) (t := e) rfl _).trans ?_
          dsimp only
          cases haccepts : q.accepts v with
          | true =>
              rw [List.filter_cons_of_pos haccepts, takeFrom_cons hfull, if_pos rfl,
                modify_of_not_isWriting hwriting]
              refine (bind_of_ok (x := v) (t := e) rfl _).trans ?_
              rw [map_of_isPureOn hpurev]
              exact hgoOn [q.yield v]
          | false =>
              rw [List.filter_cons_of_neg (by rw [haccepts]; exact Bool.false_ne_true),
                if_neg Bool.false_ne_true]
              exact hgoOn []

/-- From its first row on, a query yields what it should for the rows that its cursor visits. -/
theorem traverse_run {visits : Nat} (hr : Cursor.IsAt origin r.cursor c (origin.visits c))
    (hstore : r.store = store) (hvisits : (origin.visits c).length + 1 < visits)
    (hskip : q.skip - 1 ≤ CursorRef.maxOffset ∨ origin.visits c = [])
    (hvs : List.Forall₂ (q.LooksAt c) (origin.visits c) vs) :
    q.traverse visits r 0 e = .ok (q.yieldAll vs) e := by
  have hyield : q.yieldAll vs =
      (q.takeFrom q.skip ((vs.drop q.skip).filter q.accepts)).map q.yield := by
    rw [takeFrom_skip]
    rfl
  rw [hyield]
  cases hzero : q.skip with
  | zero =>
      rw [List.drop_zero]
      exact traverse_run_of_skipped hwriting hread hrows hshow hkeyOnly hpure hr hstore
        (Nat.lt_of_succ_lt hvisits) hzero.le hvs
  | succ k =>
      obtain ⟨n, rfl⟩ := Nat.exists_eq_add_one_of_ne_zero (Nat.ne_of_gt (Nat.zero_lt_of_lt hvisits))
      cases hall : origin.visits c with
      | nil =>
          rw [hall] at hr hvs
          cases hvs
          rw [traverse_run_of_isDone hr.stands, List.drop_nil, List.filter_nil, takeFrom_nil]
          rfl
      | cons row rest =>
          have hoffset := hskip.resolve_right (by rw [hall]; exact nofun)
          rw [hall] at hr hvs
          obtain ⟨next, hstep, hnext⟩ := Cursor.exists_step hrows hshow hr (Nat.succ_pos k)
          rw [traverse, if_neg (by rw [hr.stands.1]; exact Bool.false_ne_true),
            if_pos (hzero ▸ Nat.succ_pos k), hzero,
            bind_of_ok (CursorRef.step_run (hstore ▸ hread) (hzero ▸ hoffset)), hstep]
          refine (bind_of_ok (x := ()) (t := e) rfl _).trans ?_
          refine traverse_run_of_skipped hwriting hread hrows hshow hkeyOnly hpure hnext hstore ?_
            hzero.le (List.forall₂_drop (k + 1) hvs)
          rw [hall, List.length_cons] at hvisits
          rw [List.drop_succ_cons, List.length_drop]
          omega

end Loop

end Query
end RecordStore
