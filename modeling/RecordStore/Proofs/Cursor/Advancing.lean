import RecordStore.Proofs.Cursor.Interleaving

/-!
Moving a cursor on by several rows. It is one look for the row at an offset, and comes to the row that as
many moves by one row come to. The induction is on the number of moves. Its invariant is that a cursor
on the `n`-th of the rows that were ahead has exactly those after the `n`-th ahead.
-/

namespace RecordStore

open Effect

/-! ### Rows ahead -/

/-- On one of the rows that were ahead, a cursor has those after it ahead. -/
theorem Scan.remaining_of_getElem? {d : Direction} {rows : List Entry} {cs : List Condition}
    {position : Option Entry} {row : Entry} {n : Nat}
    (h : rows.Pairwise fun a b => Entry.lt a b = true)
    (hrow : (remaining cs d position rows)[n]? = some row) :
    remaining cs d (some row) rows = (remaining cs d position rows).drop (n + 1) := by
  obtain ⟨hn, hget⟩ := List.getElem?_eq_some_iff.1 hrow
  have hsplit : remaining cs d position rows = (remaining cs d position rows).take n ++
      row :: (remaining cs d position rows).drop (n + 1) := by
    rw [← hget, ← List.drop_eq_getElem_cons hn, List.take_append_drop]
  exact remaining_some h hsplit

namespace Cursor

variable {origin cur a b : Cursor} {c : Collection} {row : Entry} {result : Except Failure Unit}

/-- A cursor that has been moved on from another one, and is not done. -/
structure IsOnFrom (origin cur : Cursor) : Prop extends SameScan origin cur where
  isDone : cur.isDone = false
  value : origin.keyOnly = true → cur.value = origin.value

theorem isOnFrom_self (h : cur.isDone = false) : IsOnFrom cur cur := ⟨⟨rfl, rfl, rfl, rfl⟩, h, fun _ => rfl⟩

/-- What comes of a move: the cursor is ended, or it is put on a row and shows it as far as it can. -/
def ComesTo (origin : Cursor) (c : Collection) : Option Entry → Except Failure Unit → Cursor → Prop
  | none, result, cur => result = .ok () ∧ ∃ before, IsOnFrom origin before ∧ cur = before.finish
  | some row, result, cur => ∃ before, IsOnFrom origin before ∧ before.moveTo c row = (result, cur)

theorem comesTo_step (h : IsOnFrom origin cur) (count : Nat) :
    ComesTo origin c (cur.fetch c (count - 1)) (cur.step c count).1 (cur.step c count).2 := by
  unfold step
  cases cur.fetch c (count - 1) with
  | none => exact ⟨rfl, cur, h, rfl⟩
  | some row => exact ⟨cur, h, rfl⟩

/-- A cursor for keys only keeps its value when it is moved to a row. -/
theorem value_moveTo_of_keyOnly (h : cur.keyOnly = true) (c : Collection) (row : Entry) :
    (cur.moveTo c row).2.value = cur.value := by
  unfold moveTo showValue
  split
  · rfl
  · split
    · rfl
    · rw [if_pos h]

theorem ComesTo.isOnFrom (h : ComesTo origin c (some row) result cur) :
    IsOnFrom origin cur ∧ cur.position = some row := by
  obtain ⟨before, hbefore, hmoved⟩ := h
  obtain ⟨k, p, v, hcursor⟩ := exists_moveTo_eq before c row
  have hvalue : before.keyOnly = true → (before.moveTo c row).2.value = before.value :=
    fun hkeyOnly => value_moveTo_of_keyOnly hkeyOnly c row
  rw [hmoved] at hcursor hvalue
  dsimp only at hcursor hvalue
  refine ⟨⟨?_, ?_, fun hkeyOnly => ?_⟩, congrArg position hcursor⟩
  · rw [hcursor]
    exact ⟨hbefore.source, hbefore.conditions, hbefore.direction, hbefore.keyOnly⟩
  · rw [hcursor]
    exact hbefore.isDone
  · rw [hvalue (hbefore.keyOnly.trans hkeyOnly), hbefore.value hkeyOnly]

/-- From the `n`-th of the rows ahead, the next one is the one after it. -/
theorem ComesTo.fetch_eq {n : Nat} (h : ComesTo origin c (some row) result cur)
    (hrows : (c.rows origin.source).Pairwise fun a b => Entry.lt a b = true)
    (hrow : origin.fetch c n = some row) : cur.fetch c 0 = origin.fetch c (n + 1) := by
  obtain ⟨hon, hposition⟩ := h.isOnFrom
  rw [fetch, hon.conditions, hon.direction, hon.source, hposition,
    Scan.remaining_of_getElem? hrows hrow, List.getElem?_drop]
  rfl

/-- Two cursors are at one place of a scan: both are done, or both stand on one row. They show the same
keys. -/
structure AgreesWith (a b : Cursor) : Prop extends SameScan a b where
  isDone : b.isDone = a.isDone
  position : a.isDone = false → b.position = a.position
  key : b.key = a.key
  primaryKey : b.primaryKey = a.primaryKey

/-- What a cursor shows on a row whose keys can be read back. A record that cannot be read back leaves
the value as it was. -/
theorem moveTo_of_decode {k p : Value} (hk : Key.decode row.1 = .ok k) (hp : Key.decode row.2 = .ok p)
    (cur : Cursor) (c : Collection) : cur.moveTo c row =
      (if cur.keyOnly then .ok () else (c.load row.2).map fun _ => (),
        { cur with
          position := some row, key := k, primaryKey := p
          value := if cur.keyOnly then cur.value else (c.load row.2).toOption.getD cur.value }) := by
  unfold moveTo
  rw [hk]
  dsimp only
  rw [hp]
  dsimp only
  unfold showValue
  cases cur.keyOnly with
  | true => rfl
  | false => cases c.load row.2 <;> rfl

theorem SameScan.join (ha : SameScan origin a) (hb : SameScan origin b) : SameScan a b :=
  ⟨hb.source.trans ha.source.symm, hb.conditions.trans ha.conditions.symm,
    hb.direction.trans ha.direction.symm, hb.keyOnly.trans ha.keyOnly.symm⟩

/-- Where a move comes to tells what the cursor shows, whatever moves led there. Only the value is
left open, and only if the record cannot be read back. -/
theorem ComesTo.agreesWith {row? : Option Entry} {other : Except Failure Unit}
    (ha : ComesTo origin c row? result a) (hb : ComesTo origin c row? other b)
    (hdates : ∀ row ∈ row?, row.1.IsDateFree ∧ row.2.IsDateFree) :
    other = result ∧ a.AgreesWith b ∧ (⟨c, b⟩ : Look).row? = row? ∧
      (b.value = a.value ∨ ∃ row f, row? = some row ∧ c.load row.2 = .error f ∧ result = .error f) := by
  cases row? with
  | none =>
      obtain ⟨rfl, before, hbefore, rfl⟩ := ha
      obtain ⟨rfl, before', hbefore', rfl⟩ := hb
      obtain ⟨hsource, hconditions, hdirection, hkeyOnly⟩ := hbefore.join hbefore'.toSameScan
      exact ⟨rfl, ⟨⟨hsource, hconditions, hdirection, hkeyOnly⟩, rfl, nofun, rfl, rfl⟩, rfl, .inl rfl⟩
  | some row =>
      obtain ⟨hon, hposition⟩ := ha.isOnFrom
      obtain ⟨hon', hposition'⟩ := hb.isOnFrom
      have hrow : (⟨c, b⟩ : Look).row? = some row := by
        rw [Look.row?, hon'.isDone, hposition']
        rfl
      obtain ⟨⟨k, hk, hencode⟩, p, hp, hencode'⟩ := hdates row rfl
      obtain ⟨before, hbefore, hmoved⟩ := ha
      obtain ⟨before', hbefore', hmoved'⟩ := hb
      rw [moveTo_of_decode (Key.decode_encodeKey hk hencode) (Key.decode_encodeKey hp hencode')]
        at hmoved hmoved'
      obtain ⟨rfl, rfl⟩ := Prod.mk.inj hmoved
      obtain ⟨rfl, rfl⟩ := Prod.mk.inj hmoved'
      have hagrees : AgreesWith _ _ := ⟨hon.join hon'.toSameScan, hon'.isDone.trans hon.isDone.symm,
        fun _ => rfl, rfl, rfl⟩
      refine ⟨by rw [hbefore.keyOnly, hbefore'.keyOnly], hagrees, hrow, ?_⟩
      rw [hbefore.keyOnly, hbefore'.keyOnly]
      cases hkeyOnly : origin.keyOnly with
      | true => exact .inl ((hbefore'.value hkeyOnly).trans (hbefore.value hkeyOnly).symm)
      | false =>
          cases hload : c.load row.2 with
          | error f => exact .inr ⟨row, f, rfl, hload, rfl⟩
          | ok v => exact .inl rfl

end Cursor

namespace CursorRef

variable {e seen : Engine} {r : CursorRef} {c : Collection}

/-! ### One move and many -/

/-- Moves a cursor on by some rows in one look; a cursor that is done is refused. -/
def advance (r : CursorRef) (count : Nat) : Action (Except Failure Unit × CursorRef) := do
  r.ensurePositioned
  r.step count

/-- Moves a cursor on row by row, and stops once it is done. A move that comes to a row counts also
when the row cannot be shown; the result is that of the last move. -/
def advanceSingly : Nat → CursorRef → Action (Except Failure Unit × CursorRef)
  | 0, r => pure (.ok (), r)
  | n + 1, r => do
    let (result, next) ← advanceSingly n r
    if next.cursor.isDone then return (result, next) else next.advance 1

theorem advance_of_not_done (hdone : r.cursor.isDone = false) (count : Nat) :
    r.advance count = r.step count := by
  unfold advance ensurePositioned
  rw [hdone, if_neg Bool.false_ne_true]
  rfl

theorem advance_run (hread : r.store.collection e = .ok c seen) (hdone : r.cursor.isDone = false)
    {count : Nat} (hcount : count - 1 ≤ maxOffset) : r.advance count e =
      .ok ((r.cursor.step c count).1, { r with cursor := (r.cursor.step c count).2 }) seen := by
  rw [advance_of_not_done hdone, step_run hread hcount]

/-- A move over more rows than a storage can count is refused, however few there are. -/
theorem advance_run_of_lt (hread : r.store.collection e = .ok c seen) (hdone : r.cursor.isDone = false)
    {count : Nat} (hcount : maxOffset < count - 1) :
    r.advance count e = .error (.format .countBeyondStorage) seen := by
  rw [advance_of_not_done hdone, step, bind_of_ok hread, if_pos hcount]
  rfl

theorem advanceSingly_succ_run {d : Engine} {n : Nat} {result : Except Failure Unit} {next : CursorRef}
    (h : advanceSingly n r e = .ok (result, next) d) : advanceSingly (n + 1) r e =
      if next.cursor.isDone then .ok (result, next) d else next.advance 1 d := by
  rw [advanceSingly, bind_of_ok h]
  dsimp only
  split <;> rfl

theorem advanceSingly_succ_run_of_not_done (next : CursorRef) {d : Engine} {n : Nat}
    {result : Except Failure Unit} (h : advanceSingly n r e = .ok (result, next) d)
    (hread : next.store.collection d = .ok c seen) (hdone : next.cursor.isDone = false) :
    advanceSingly (n + 1) r e = .ok ((next.cursor.step c 1).1,
      { next with cursor := (next.cursor.step c 1).2 }) seen := by
  rw [advanceSingly_succ_run h, hdone, if_neg Bool.false_ne_true,
    advance_run hread hdone (Nat.zero_le _)]

theorem advanceSingly_two_run (hread : r.store.collection e = .ok c seen)
    (hdone : r.cursor.isDone = false) (hnext : (r.cursor.step c 1).2.isDone = false) :
    advanceSingly 2 r e = .ok (((r.cursor.step c 1).2.step c 1).1,
      { r with cursor := ((r.cursor.step c 1).2.step c 1).2 }) seen :=
  advanceSingly_succ_run_of_not_done { r with cursor := (r.cursor.step c 1).2 }
    (advanceSingly_succ_run_of_not_done r rfl hread hdone) (StoreRef.collection_again hread) hnext

/-- After any number of moves by one row a cursor is on the row at that distance, if there is one. -/
theorem exists_advanceSingly_run (hread : r.store.collection e = .ok c seen)
    (hdone : r.cursor.isDone = false)
    (hrows : (c.rows r.cursor.source).Pairwise fun a b => Entry.lt a b = true) (n : Nat) :
    ∃ result cur, advanceSingly (n + 1) r e = .ok (result, { r with cursor := cur }) seen ∧
      Cursor.ComesTo r.cursor c (r.cursor.fetch c n) result cur := by
  induction n with
  | zero =>
      exact ⟨_, _, advanceSingly_succ_run_of_not_done r rfl hread hdone,
        Cursor.comesTo_step (Cursor.isOnFrom_self hdone) 1⟩
  | succ n ih =>
      obtain ⟨result, cur, hrun, hcur⟩ := ih
      cases hfetch : r.cursor.fetch c n with
      | none =>
          -- the cursor is done, and there is no row further on
          rw [hfetch] at hcur
          have hbeyond : r.cursor.fetch c (n + 1) = none :=
            List.getElem?_eq_none ((List.getElem?_eq_none_iff.1 hfetch).trans (Nat.le_succ n))
          obtain ⟨before, _, hfinished⟩ := hcur.2
          refine ⟨result, cur, (advanceSingly_succ_run hrun).trans (if_pos ?_), hbeyond ▸ hcur⟩
          rw [hfinished]
          rfl
      | some row =>
          rw [hfetch] at hcur
          obtain ⟨hon, _⟩ := hcur.isOnFrom
          refine ⟨_, _, advanceSingly_succ_run_of_not_done ⟨r.store, cur⟩ hrun
            (StoreRef.collection_again hread) hon.isDone, ?_⟩
          rw [← hcur.fetch_eq hrows hfetch]
          exact Cursor.comesTo_step hon 1

/-- Single moves come to the end if there are more of them than rows ahead. -/
theorem exists_advanceSingly_run_of_fetch_none (hread : r.store.collection e = .ok c seen)
    (hdone : r.cursor.isDone = false)
    (hrows : (c.rows r.cursor.source).Pairwise fun a b => Entry.lt a b = true) {n : Nat}
    (hfetch : r.cursor.fetch c n = none) : ∃ many,
      advanceSingly (n + 1) r e = .ok (.ok (), many) seen ∧ many.cursor.isDone = true := by
  obtain ⟨result, cur, hrun, hcur⟩ := exists_advanceSingly_run hread hdone hrows n
  rw [hfetch] at hcur
  obtain ⟨rfl, before, _, rfl⟩ := hcur
  exact ⟨_, hrun, rfl⟩

/-- Many rows at once are as many single ones. In any state that calls lead to, let a cursor that is not
done be over a source whose keys are without dates, and let nothing be written. Then one move by up to
`2 ^ 63` rows comes to the same place as that many moves by one row that stop once the cursor is done:
to the row at that distance or, if there are fewer rows ahead, to the end. It fails alike, and shows the
same keys and the same value, unless the record that it comes to cannot be read back. -/
theorem advance_agrees_with_single_moves (he : e.IsReachable)
    (hread : r.store.collection e = .ok c seen)
    (hdates : ∀ row ∈ c.rows r.cursor.source, row.1.IsDateFree ∧ row.2.IsDateFree)
    (hdone : r.cursor.isDone = false) {n : Nat} (hpositive : 0 < n) (hlimit : n ≤ maxOffset + 1) :
    ∃ result one many, r.advance n e = .ok (result, one) seen ∧
      advanceSingly n r e = .ok (result, many) seen ∧ one.store = many.store ∧
      many.cursor.AgreesWith one.cursor ∧
      (⟨c, one.cursor⟩ : Cursor.Look).row? = (Scan.remaining r.cursor.conditions r.cursor.direction
        r.cursor.position (c.rows r.cursor.source))[n - 1]? ∧
      (one.cursor.value = many.cursor.value ∨ ∃ row f, one.cursor.position = some row ∧
        c.load row.2 = .error f ∧ result = .error f) := by
  obtain ⟨n, rfl⟩ := Nat.exists_eq_add_one_of_ne_zero hpositive.ne'
  have hrows := (StoreRef.isAscending_of_read he hread).rows r.cursor.source
  have hstep := Cursor.comesTo_step (c := c) (Cursor.isOnFrom_self hdone) (n + 1)
  obtain ⟨result, cur, hrun, hcur⟩ := exists_advanceSingly_run hread hdone hrows n
  have hahead : ∀ row ∈ r.cursor.fetch c n, row.1.IsDateFree ∧ row.2.IsDateFree := by
    intro row hrow
    have hordered := List.mem_of_mem_filter (List.mem_of_getElem? hrow)
    exact hdates row ((Scan.mem_ordered_iff hrows).1 hordered).1
  obtain ⟨hresult, hagrees, hrow, hvalue⟩ := hcur.agreesWith hstep hahead
  refine ⟨result, ⟨r.store, (r.cursor.step c (n + 1)).2⟩, ⟨r.store, cur⟩, ?_, hrun, rfl, hagrees, hrow, ?_⟩
  · rw [advance_run hread hdone (Nat.pred_le_pred hlimit), hresult]
  · refine hvalue.imp_right fun ⟨row, f, hfetch, hload, herror⟩ => ⟨row, f, ?_, hload, herror⟩
    rw [Nat.add_sub_cancel, hfetch] at hstep
    exact hstep.isOnFrom.2

/-! ### Moves that differ -/

/-- Rows whose keys are small whole numbers. -/
theorem isDateFree_of_ints {rows : List Entry} (h : ∀ row ∈ rows,
    (∃ n ∈ List.range 8, (Value.int n).encodeKey.toOption = some row.1) ∧
      ∃ n ∈ List.range 8, (Value.int n).encodeKey.toOption = some row.2) :
    ∀ row ∈ rows, row.1.IsDateFree ∧ row.2.IsDateFree := by
  intro row hrow
  obtain ⟨⟨k, _, hk⟩, ⟨p, _, hp⟩⟩ := h row hrow
  exact ⟨⟨.int k, trivial, eq_ok_of_toOption hk⟩, ⟨.int p, trivial, eq_ok_of_toOption hp⟩⟩

theorem isDateFree_numbersDrafted :
    ∀ row ∈ (Course.numbers.drafted numbersDrafted).rows numbersFirst.source,
      row.1.IsDateFree ∧ row.2.IsDateFree :=
  isDateFree_of_ints (by decide +kernel)

theorem collection_numbersDrafted : Course.numbers.collection numbersDrafted =
    .ok (Course.numbers.drafted numbersDrafted) numbersDrafted :=
  StoreRef.collection_run_drafted (by decide +kernel)

/-- From the first of three numbers, a move by two rows and two moves by one row come to the third. -/
theorem advance_agrees_with_single_moves_numbers : numbersDrafted.IsReachable ∧
    numbersFirst.isDone = false ∧ ∃ result one many,
      advance ⟨Course.numbers, numbersFirst⟩ 2 numbersDrafted = .ok (result, one) numbersDrafted ∧
      advanceSingly 2 ⟨Course.numbers, numbersFirst⟩ numbersDrafted = .ok (result, many) numbersDrafted ∧
      many.cursor.AgreesWith one.cursor ∧ one.cursor.isDone = false := by
  have hreachable : numbersDrafted.IsReachable :=
    Course.isReachable_engine (Course.isReached_numbersIndexed false)
  have hdone : numbersFirst.isDone = false := by decide +kernel
  obtain ⟨result, one, many, hone, hmany, _, hagrees, hrow, _⟩ :=
    advance_agrees_with_single_moves (r := ⟨Course.numbers, numbersFirst⟩) hreachable
      collection_numbersDrafted isDateFree_numbersDrafted hdone Nat.two_pos (by decide +kernel)
  refine ⟨hreachable, hdone, result, one, many, hone, hmany, hagrees, ?_⟩
  have hthere : ((Scan.remaining numbersFirst.conditions numbersFirst.direction numbersFirst.position
      ((Course.numbers.drafted numbersDrafted).rows numbersFirst.source))[2 - 1]?).isSome = true := by
    decide +kernel
  rw [← hrow] at hthere
  cases hended : one.cursor.isDone with
  | false => rfl
  | true =>
      rw [Cursor.Look.row?, hended] at hthere
      cases hthere

end CursorRef

/-- A collection whose generated keys turn the records that they are put into into tags. -/
def Course.tagged : StoreRef := ⟨0, "tagged", ⟨some (.single "$date"), true⟩⟩

/-- An upgrade that stores two records with keys of their own and one with a generated key. The last one
cannot be read back. -/
def Engine.taggedStored : Engine := initial.afterCalls
  [.beginOpen "path" (.int 1) none,
    .createCollection 0 (.text "tagged") (.text "$date") (.bool true),
    .put Course.tagged (.dict [(.text "$date", .int 0), (.text "o", .text "a")]) .null,
    .put Course.tagged (.dict [(.text "$date", .int 1), (.text "o", .text "b")]) .null,
    .put Course.tagged (.dict []) .null]

namespace CursorRef

/-- A cursor over the records, on the first one. -/
def taggedFirst : CursorRef where
  store := Course.tagged
  cursor := ((Cursor.start none [] .next false).step (Course.tagged.drafted Engine.taggedStored) 1).2

/-- More rows than a storage can count are refused, while single moves come to the end; and on a record
that cannot be read back each cursor still shows the record that it showed before its last move. -/
theorem advance_disagrees_with_single_moves :
    (numbersDrafted.IsReachable ∧ numbersFirst.isDone = false ∧
      (∀ row ∈ (Course.numbers.drafted numbersDrafted).rows numbersFirst.source,
        row.1.IsDateFree ∧ row.2.IsDateFree) ∧
      advance ⟨Course.numbers, numbersFirst⟩ (maxOffset + 2) numbersDrafted =
        .error (.format .countBeyondStorage) numbersDrafted ∧
      ∃ many, advanceSingly (maxOffset + 2) ⟨Course.numbers, numbersFirst⟩ numbersDrafted =
        .ok (.ok (), many) numbersDrafted ∧ many.cursor.isDone = true) ∧
    (Engine.taggedStored.IsReachable ∧ taggedFirst.cursor.isDone = false ∧
      (∀ row ∈ (Course.tagged.drafted Engine.taggedStored).rows taggedFirst.cursor.source,
        row.1.IsDateFree ∧ row.2.IsDateFree) ∧
      ∃ result result' one many,
        advance taggedFirst 2 Engine.taggedStored =
          .ok (result, one) Engine.taggedStored ∧
        advanceSingly 2 taggedFirst Engine.taggedStored =
          .ok (result', many) Engine.taggedStored ∧
        one.cursor.value ≠ many.cursor.value) := by
  have hnumbers : numbersFirst.isDone = false := by decide +kernel
  have htagged : taggedFirst.cursor.isDone = false := by decide +kernel
  have hread : taggedFirst.store.collection Engine.taggedStored =
      .ok (Course.tagged.drafted Engine.taggedStored) Engine.taggedStored :=
    StoreRef.collection_run_drafted (by decide +kernel)
  refine ⟨⟨Course.isReachable_engine (Course.isReached_numbersIndexed false), hnumbers,
    isDateFree_numbersDrafted, ?_, ?_⟩, Engine.isReachable_afterCalls .initial _, htagged,
    isDateFree_of_ints (by decide +kernel), ?_⟩
  · exact advance_run_of_lt (r := ⟨Course.numbers, numbersFirst⟩) collection_numbersDrafted hnumbers
      (by omega)
  · have hreachable := Course.isReachable_engine (Course.isReached_numbersIndexed false)
    refine exists_advanceSingly_run_of_fetch_none (r := ⟨Course.numbers, numbersFirst⟩)
      collection_numbersDrafted hnumbers
      ((StoreRef.isAscending_of_read hreachable collection_numbersDrafted).rows _) ?_
    have hshort : (Scan.remaining numbersFirst.conditions numbersFirst.direction numbersFirst.position
        ((Course.numbers.drafted numbersDrafted).rows numbersFirst.source)).length ≤ 3 := by
      decide +kernel
    exact List.getElem?_eq_none (hshort.trans (by decide +kernel))
  · have hnext : (taggedFirst.cursor.step (Course.tagged.drafted Engine.taggedStored) 1).2.isDone = false := by
      decide +kernel
    refine ⟨_, _, _, _, advance_run hread htagged ?_,
      advanceSingly_two_run hread htagged hnext, fun hvalue => ?_⟩
    · decide +kernel
    · have hshown := congrArg (fun v => (KeyPath.find? (.single "o") v).map Value.display) hvalue
      revert hshown
      decide +kernel

end CursorRef
end RecordStore
