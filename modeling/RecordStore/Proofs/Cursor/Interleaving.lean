import RecordStore.Proofs.Collection.Ascending
import RecordStore.Proofs.Cursor.Enumeration

/-!
Cursors over a source that changes under them. A cursor keeps nothing of its source but the row that it
came to last, and looks for the next one in whatever the source holds by then. The invariant is about the
rows ahead of the cursor: all that it will come to are beyond its position, and a row that is ahead and
stays in the source until the cursor is done is met, as no look can pass it over. So it does not matter
what is written between two looks.
-/

namespace RecordStore

open Effect

namespace Scan

variable {d : Direction} {a b e : Entry} {rows : List Entry}

/-! ### Places of rows -/

/-- What a cursor tells rows apart by: both keys, and in the unique directions the index key alone. -/
def place (d : Direction) (row : Entry) : Bytes × Option Bytes :=
  (row.1, if d.isUnique then none else some row.2)

theorem place_eq_iff : place d a = place d b ↔ a.1 = b.1 ∧ (d.isUnique = false → a.2 = b.2) := by
  cases hunique : d.isUnique <;> simp [place, hunique, Prod.ext_iff]

theorem count_map_place (h : d.isUnique = false) (rows : List Entry) (row : Entry) :
    (rows.map (place d)).count (place d row) = rows.count row :=
  List.count_map_of_injective rows (place d)
    (fun _ _ heq => Prod.ext (place_eq_iff.1 heq).1 ((place_eq_iff.1 heq).2 h)) row

theorem count_map_place_of_isUnique (h : d.isUnique = true) (rows : List Entry) (row : Entry) :
    (rows.map (place d)).count (place d row) = (rows.map Prod.fst).count row.1 := by
  have hplace : place d = (fun key => (key, none)) ∘ Prod.fst := by
    funext row
    simp [place, h]
  rw [hplace, ← List.map_map]
  exact List.count_map_of_injective (rows.map Prod.fst) _ (fun _ _ heq => (Prod.mk.inj heq).1) row.1

/-- Which row comes after which is told by their places. -/
theorem isBeyond_congr_left (h : place d a = place d b) : isBeyond d a e = isBeyond d b e := by
  obtain ⟨hkey, hrecord⟩ := place_eq_iff.1 h
  cases d <;> simp_all [isBeyond, Direction.isForward, Direction.isUnique, Entry.lt]

theorem isBeyond_congr_right (h : place d a = place d b) : isBeyond d e a = isBeyond d e b := by
  obtain ⟨hkey, hrecord⟩ := place_eq_iff.1 h
  cases d <;> simp_all [isBeyond, Direction.isForward, Direction.isUnique, Entry.lt]

theorem place_ne_of_isBeyond (h : isBeyond d a b = true) : place d a ≠ place d b := by
  intro hplace
  have hself : isBeyond d b b = true := (isBeyond_congr_left hplace).symm.trans h
  rw [isBeyond_asymm hself] at hself
  cases hself

/-- Each row has its place in the order of visits. -/
theorem exists_mem_ordered (h : rows.Pairwise fun a b => Entry.lt a b = true) (hrow : a ∈ rows) :
    ∃ f ∈ ordered d rows, place d f = place d a := by
  cases hunique : d.isUnique with
  | false =>
      refine ⟨a, (mem_ordered_iff h).2 ⟨hrow, ?_⟩, rfl⟩
      rw [hunique]
      exact nofun
  | true =>
      obtain ⟨f, hf, hkey, _⟩ := exists_mem_firstPerKey h hrow
      obtain ⟨hmem, hlowest⟩ := (mem_firstPerKey_iff h).1 hf
      refine ⟨f, (mem_ordered_iff h).2 ⟨hmem, fun _ => hlowest⟩, place_eq_iff.2 ⟨hkey, ?_⟩⟩
      rw [hunique]
      exact nofun

/-- A look does not pass over a row: if a row is ahead, the next row is at its place or before it. -/
theorem exists_next_of_ahead (h : rows.Pairwise fun a b => Entry.lt a b = true) {cs : List Condition}
    {position : Option Entry} (hrow : a ∈ rows) (hcs : Condition.allHold cs a.1 = true)
    (hahead : ∀ p ∈ position, isBeyond d p a = true) :
    ∃ next, (remaining cs d position rows)[0]? = some next ∧
      (place d next = place d a ∨ isBeyond d next a = true) := by
  obtain ⟨f, hf, hplace⟩ := exists_mem_ordered (d := d) h hrow
  -- the row at this place is among those that remain, and these are sorted
  have hmem : f ∈ remaining cs d position rows := by
    refine List.mem_filter.2 ⟨hf, ?_⟩
    rw [(place_eq_iff.1 hplace).1, hcs, Bool.true_and, Option.all_eq_true]
    intro p hp
    rw [isBeyond_congr_right hplace]
    exact hahead p hp
  have hsorted : (remaining cs d position rows).Pairwise fun a b => isBeyond d a b = true :=
    (pairwise_ordered h d).filter _
  cases hremaining : remaining cs d position rows with
  | nil =>
      rw [hremaining] at hmem
      cases hmem
  | cons next rest =>
      rw [hremaining] at hmem hsorted
      refine ⟨next, rfl, ?_⟩
      rcases List.mem_cons.1 hmem with rfl | hrest
      · exact .inl hplace
      · right
        rw [← isBeyond_congr_right hplace]
        exact (List.pairwise_cons.1 hsorted).1 f hrest

end Scan

/-! ### Looks -/

namespace Cursor

/-- A look of a cursor for its next row: the collection as it was then, and the cursor after it. -/
structure Look where
  collection : Collection
  cursor : Cursor

/-- The row that a cursor came to, if it came to one. -/
def Look.row? (l : Look) : Option Entry := if l.cursor.isDone then none else l.cursor.position

/-- The rows that a cursor came to, one after the other. -/
def visited (looks : List Look) : List Entry := looks.filterMap Look.row?

/-- A cursor goes from look to look until it is done, and each time takes one step in the collection as
it is then. -/
def GoesOver (cur : Cursor) : List Look → Prop
  | [] => cur.isDone = true
  | look :: rest =>
    cur.isDone = false ∧ (cur.step look.collection 1).2 = look.cursor ∧ look.cursor.GoesOver rest

variable {origin cur : Cursor} {c : Collection} {look : Look} {looks : List Look} {row : Entry}

theorem visited_cons_of_some (h : look.row? = some row) :
    visited (look :: looks) = row :: visited looks := List.filterMap_cons_some h

theorem visited_cons_of_none (h : look.row? = none) : visited (look :: looks) = visited looks :=
  List.filterMap_cons_none h

theorem step_one (cur : Cursor) (c : Collection) : cur.step c 1 = match cur.fetch c 0 with
    | none => (.ok (), cur.finish)
    | some row => cur.moveTo c row := rfl

/-- A step leads to the first of the rows that are left, or ends the cursor. -/
theorem look_cases (hsame : SameScan origin cur) (hdone : cur.isDone = false)
    (hlook : (cur.step look.collection 1).2 = look.cursor) : SameScan origin look.cursor ∧
      (cur.fetch look.collection 0 = none ∧ look.cursor.isDone = true ∧ look.row? = none ∨
        ∃ row, cur.fetch look.collection 0 = some row ∧ look.cursor.isDone = false ∧
          look.cursor.position = some row ∧ look.row? = some row) := by
  rw [step_one] at hlook
  cases hfetch : cur.fetch look.collection 0 with
  | none =>
      rw [hfetch] at hlook
      have hfinished : look.cursor.isDone = true := by rw [← hlook]; rfl
      refine ⟨?_, .inl ⟨rfl, hfinished, if_pos hfinished⟩⟩
      rw [← hlook]
      exact ⟨hsame.source, hsame.conditions, hsame.direction, hsame.keyOnly⟩
  | some row =>
      rw [hfetch] at hlook
      obtain ⟨k, p, v, hmoved⟩ := exists_moveTo_eq cur look.collection row
      have hcursor := hlook.symm.trans hmoved
      refine ⟨?_, .inr ⟨row, rfl, ?_, ?_, ?_⟩⟩
      · rw [hcursor]
        exact ⟨hsame.source, hsame.conditions, hsame.direction, hsame.keyOnly⟩
      · rw [hcursor]
        exact hdone
      · rw [hcursor]
      · rw [Look.row?, hcursor, hdone]
        rfl

/-- What a look finds is in the source, meets the conditions and is beyond the position. -/
theorem of_fetch (hsame : SameScan origin cur) (hfetch : cur.fetch c 0 = some row) :
    row ∈ Scan.ordered origin.direction (c.rows origin.source) ∧
      Condition.allHold origin.conditions row.1 = true ∧
        ∀ p ∈ cur.position, Scan.isBeyond origin.direction p row = true := by
  rw [fetch, hsame.conditions, hsame.direction, hsame.source] at hfetch
  obtain ⟨hordered, hrest⟩ := List.mem_filter.1 (List.mem_of_getElem? hfetch)
  rw [Bool.and_eq_true, Option.all_eq_true] at hrest
  exact ⟨hordered, hrest.1, hrest.2⟩

/-- A cursor that is moved to a row without dates shows its keys, also if it cannot show the record. -/
theorem encodes_moveTo (cur : Cursor) (c : Collection) (hkey : row.1.IsDateFree)
    (hprimaryKey : row.2.IsDateFree) : row.1.Encodes (cur.moveTo c row).2.key ∧
      row.2.Encodes (cur.moveTo c row).2.primaryKey := by
  obtain ⟨k, hk, hencode⟩ := hkey
  obtain ⟨p, hp, hencode'⟩ := hprimaryKey
  have hdecode := Key.decode_encodeKey hk hencode
  have hdecode' := Key.decode_encodeKey hp hencode'
  have hshown : ∃ v, (cur.moveTo c row).2 = { cur with
      position := some row, key := k.keyNorm, primaryKey := p.keyNorm, value := v } := by
    unfold moveTo
    rw [hdecode]
    dsimp only
    rw [hdecode']
    exact exists_showValue_eq _ c row.2
  obtain ⟨v, hv⟩ := hshown
  rw [hv]
  exact ⟨⟨hdecode, Value.encodeKey_keyNorm hencode⟩, hdecode', Value.encodeKey_keyNorm hencode'⟩

/-- All rows that a cursor comes to are beyond its position, each beyond those before it. -/
theorem pairwise_visited (hsame : SameScan origin cur) (h : cur.GoesOver looks) :
    (visited looks).Pairwise (fun a b => Scan.isBeyond origin.direction a b = true) ∧
      ∀ row ∈ visited looks, ∀ p ∈ cur.position, Scan.isBeyond origin.direction p row = true := by
  induction looks generalizing cur with
  | nil => exact ⟨.nil, nofun⟩
  | cons look rest ih =>
      obtain ⟨hdone, hlook, hrest⟩ := h
      obtain ⟨hsame', hcases⟩ := look_cases hsame hdone hlook
      obtain ⟨hpairwise, hbeyond⟩ := ih hsame' hrest
      rcases hcases with ⟨_, hfinished, hnone⟩ | ⟨row, hfetch, _, hposition, hrow⟩
      · -- a cursor that is done looks no further
        have hnil : rest = [] := by
          cases rest with
          | nil => rfl
          | cons other _ => rw [hrest.1] at hfinished; cases hfinished
        rw [visited_cons_of_none hnone, hnil]
        exact ⟨.nil, nofun⟩
      · have hahead := (of_fetch hsame hfetch).2.2
        rw [visited_cons_of_some hrow]
        have hlater : ∀ other ∈ visited rest, Scan.isBeyond origin.direction row other = true :=
          fun other hother => hbeyond other hother row hposition
        refine ⟨List.pairwise_cons.2 ⟨hlater, hpairwise⟩, ?_⟩
        intro other hother p hp
        rcases List.mem_cons.1 hother with rfl | hother
        · exact hahead p hp
        · exact Scan.isBeyond_trans (hahead p hp) (hlater other hother)

/-- Each look of a cursor comes to a row of the source as it is then, in the range of the cursor. -/
theorem row?_spec (hsame : SameScan origin cur) (h : cur.GoesOver looks) (hlook : look ∈ looks)
    (hrow : look.row? = some row) :
    row ∈ Scan.ordered origin.direction (look.collection.rows origin.source) ∧
      Condition.allHold origin.conditions row.1 = true ∧
        ∃ before : Cursor, look.cursor = (before.moveTo look.collection row).2 := by
  induction looks generalizing cur with
  | nil => cases hlook
  | cons first rest ih =>
      obtain ⟨hdone, hfirst, hrest⟩ := h
      rcases List.mem_cons.1 hlook with rfl | hlook
      · rcases (look_cases hsame hdone hfirst).2 with ⟨_, _, hnone⟩ | ⟨other, hfetch, _, _, hother⟩
        · rw [hnone] at hrow
          cases hrow
        · obtain rfl : other = row := Option.some.inj (hother.symm.trans hrow)
          obtain ⟨hordered, hcs, _⟩ := of_fetch hsame hfetch
          refine ⟨hordered, hcs, cur, ?_⟩
          rw [← hfirst, step_one, hfetch]
      · exact ih (look_cases hsame hdone hfirst).1 hrest hlook

/-- A row that is ahead of a cursor and whose place is taken at every look is met just once. -/
theorem count_visited (hsame : SameScan origin cur) (h : cur.GoesOver looks)
    (hdone : cur.isDone = false)
    (hrows : ∀ look ∈ looks,
      (look.collection.rows origin.source).Pairwise fun a b => Entry.lt a b = true)
    (hcs : Condition.allHold origin.conditions row.1 = true)
    (hpresent : ∀ look ∈ looks, ∃ other ∈ look.collection.rows origin.source,
      Scan.place origin.direction other = Scan.place origin.direction row)
    (hahead : ∀ p ∈ cur.position, Scan.isBeyond origin.direction p row = true) :
    ((visited looks).map (Scan.place origin.direction)).count
      (Scan.place origin.direction row) = 1 := by
  induction looks generalizing cur with
  | nil =>
      rw [show cur.isDone = true from h] at hdone
      cases hdone
  | cons look rest ih =>
      obtain ⟨_, hlook, hrest⟩ := h
      obtain ⟨hsame', hcases⟩ := look_cases hsame hdone hlook
      obtain ⟨other, hother, hplace⟩ := hpresent look List.mem_cons_self
      have hothercs : Condition.allHold origin.conditions other.1 = true := by
        rw [(Scan.place_eq_iff.1 hplace).1]
        exact hcs
      have hotherahead : ∀ p ∈ cur.position, Scan.isBeyond origin.direction p other = true :=
        fun p hp => (Scan.isBeyond_congr_right hplace).trans (hahead p hp)
      -- the row cannot be passed over: the look comes to its place, or to one before it
      obtain ⟨next, hnext, hwhere⟩ := Scan.exists_next_of_ahead (hrows look List.mem_cons_self) hother
        hothercs hotherahead
      rw [hplace, Scan.isBeyond_congr_right hplace] at hwhere
      have hfetch : cur.fetch look.collection 0 = some next := by
        rw [fetch, hsame.conditions, hsame.direction, hsame.source, hnext]
      rw [hfetch] at hcases
      obtain ⟨_, ⟨⟩, hundone, hposition, hrow⟩ := hcases.resolve_left fun hnone =>
        Option.some_ne_none next hnone.1
      rw [visited_cons_of_some hrow, List.map_cons, List.count_cons]
      rcases hwhere with hhere | hbeyond
      · -- the row is met now, and all later ones are beyond it
        have hlater : Scan.place origin.direction row ∉
            (visited rest).map (Scan.place origin.direction) := by
          intro hmem
          obtain ⟨later, hvisited, heq⟩ := List.mem_map.1 hmem
          have hbeyond := (pairwise_visited hsame' hrest).2 later hvisited next hposition
          exact Scan.place_ne_of_isBeyond hbeyond (hhere.trans heq.symm)
        rw [List.count_eq_zero.2 hlater, hhere, beq_self_eq_true, if_pos rfl]
      · -- the row is still ahead, so that a later look comes to it
        have hne := Scan.place_ne_of_isBeyond hbeyond
        rw [ih hsame' hrest hundone (fun l hl => hrows l (List.mem_cons_of_mem look hl))
          (fun l hl => hpresent l (List.mem_cons_of_mem look hl))
          (fun p hp => by rw [hposition] at hp; cases hp; exact hbeyond),
          beq_false_of_ne hne, if_neg Bool.false_ne_true]

end Cursor

/-! ### Steps among other calls -/

namespace EngineCall

variable {α : Type} {e d : Engine}

/-- What a call that obtains nothing succeeds with is a state that calls lead to. -/
theorem isReachable_of_ok {c : EngineCall} {a : Action α} (h : e.IsReachable)
    (hrun : c.run = obtainsNone a) {x : α} (ha : a e = .ok x d) : d.IsReachable := by
  have hafter : c.run.after e = d := by
    rw [hrun, Effect.after, obtainsNone, bind_of_ok ha]
    rfl
  exact hafter ▸ h.next c

end EngineCall

namespace CursorRef

/-- A cursor is moved on until it is done, and any calls are made before each of its steps. A step that
comes to a row counts also when the row cannot be shown. -/
inductive GoesOn : CursorRef → Engine → List Cursor.Look → Prop
  | done {r : CursorRef} {e : Engine} (hdone : r.cursor.isDone = true) : GoesOn r e []
  | step {r next : CursorRef} {e seen : Engine} {c : Collection} {result : Except Failure Unit}
    {looks : List Cursor.Look} (calls : List EngineCall) (hdone : r.cursor.isDone = false)
    (hread : r.store.collection (e.afterCalls calls) = .ok c seen)
    (hstep : r.step 1 (e.afterCalls calls) = .ok (result, next) seen)
    (hrest : GoesOn next seen looks) : GoesOn r e (⟨c, next.cursor⟩ :: looks)

section

variable {r : CursorRef} {e : Engine} {looks : List Cursor.Look}

theorem GoesOn.goesOver (h : GoesOn r e looks) : r.cursor.GoesOver looks := by
  induction h with
  | done hdone => exact hdone
  | step calls hdone hread hstep hrest ih =>
      cases (step_run hread (Nat.zero_le _)).symm.trans hstep
      exact ⟨hdone, rfl, ih⟩

theorem GoesOn.isAscending (h : GoesOn r e looks) (he : e.IsReachable) :
    ∀ look ∈ looks, look.collection.IsAscending := by
  induction h with
  | done => exact nofun
  | @step r next e seen c result looks calls hdone hread hstep hrest ih =>
      have hcalled := Engine.isReachable_afterCalls he calls
      have hseen := EngineCall.isReachable_of_ok (c := .stepCursor r 1) hcalled rfl hstep
      intro look hlook
      rcases List.mem_cons.1 hlook with rfl | hlook
      · exact StoreRef.isAscending_of_read hcalled hread
      · exact ih hseen look hlook

end

/-- A cursor is opened and then moved on until it is done; the opening is the first of the looks. -/
def Passes (r : StoreRef) (source : Option String) (query : Value) (d : Direction) (keyOnly : Bool)
    (e : Engine) (looks : List Cursor.Look) : Prop :=
  ∃ c seen first rest, r.collection e = .ok c seen ∧
    start r source query (.text d.name) keyOnly e = .ok first seen ∧ GoesOn first seen rest ∧
      looks = ⟨c, first.cursor⟩ :: rest

variable {e : Engine} {r : StoreRef} {source : Option String} {query : Value}
  {range : Option (KeyRange Value)} {d : Direction} {keyOnly : Bool} {looks : List Cursor.Look}

/-- The opening of a cursor is a step from before its first row. -/
theorem Passes.goesOn (h : Passes r source query d keyOnly e looks)
    (hrange : KeyRange.ofQuery query = .ok range) :
    GoesOn ⟨r, .start source (KeyRange.conditionsOf range) d keyOnly⟩ e looks := by
  obtain ⟨c, seen, first, rest, hread, hstart, hgoes, rfl⟩ := h
  rw [start_run hread hrange, ending_eq_ok_iff, map_eq_ok_iff] at hstart
  obtain ⟨⟨u, hresult, rfl⟩, _⟩ := hstart
  have hone : 1 - 1 ≤ maxOffset := Nat.zero_le _
  have hstep := step_run (r := ⟨r, .start source (KeyRange.conditionsOf range) d keyOnly⟩) hread hone
  rw [hresult] at hstep
  exact .step [] rfl hread hstep hgoes

/-- Cursors stay sound while their source is written to. In any state that calls lead to, a cursor is
opened on a range, and then moved on until it is done, with any calls before each step. Then the rows
that it comes to are in the order of the direction, so that none is come to twice. Each of them is a row
of the source as it is at that time, lies in the range and is shown by its keys. And every row in the
range that is in the source whenever the cursor looks is come to exactly once; in the unique directions
the same is true of every index key. -/
theorem meets_present_rows_once (he : e.IsReachable) (hrange : KeyRange.ofQuery query = .ok range)
    (hpasses : Passes r source query d keyOnly e looks)
    (hdates : ∀ look ∈ looks, ∀ row ∈ look.collection.rows source,
      row.1.IsDateFree ∧ row.2.IsDateFree) :
    (Cursor.visited looks).Pairwise (fun a b => Scan.isBeyond d a b = true) ∧
      (∀ look ∈ looks, ∀ row ∈ look.row?, row ∈ look.collection.rows source ∧
        KeyRange.covers range row.1 = true ∧ row.1.Encodes look.cursor.key ∧
          row.2.Encodes look.cursor.primaryKey) ∧
      (d.isUnique = false → ∀ row, KeyRange.covers range row.1 = true →
        (∀ look ∈ looks, row ∈ look.collection.rows source) → (Cursor.visited looks).count row = 1) ∧
      (d.isUnique = true → ∀ key, KeyRange.covers range key = true →
        (∀ look ∈ looks, key ∈ (look.collection.rows source).map Prod.fst) →
          ((Cursor.visited looks).map Prod.fst).count key = 1) := by
  have hgoes := hpasses.goesOn hrange
  have hover := hgoes.goesOver
  have hrows := fun look hlook => (hgoes.isAscending he look hlook).rows source
  have hsame : Cursor.SameScan (.start source (KeyRange.conditionsOf range) d keyOnly)
    (.start source (KeyRange.conditionsOf range) d keyOnly) := ⟨rfl, rfl, rfl, rfl⟩
  have hcount := fun (row : Entry) hcs hpresent =>
    Cursor.count_visited hsame hover rfl hrows (hcs : Condition.allHold _ row.1 = true) hpresent nofun
  refine ⟨(Cursor.pairwise_visited hsame hover).1, fun look hlook row hrow => ?_,
    fun hunique row hcovers hpresent => ?_, fun hunique key hcovers hpresent => ?_⟩
  · obtain ⟨hordered, hcs, before, hmoved⟩ := Cursor.row?_spec hsame hover hlook hrow
    have hmem : row ∈ look.collection.rows source :=
      ((Scan.mem_ordered_iff (hrows look hlook)).1 hordered).1
    obtain ⟨hkey, hprimaryKey⟩ := hdates look hlook row hmem
    rw [hmoved]
    exact ⟨hmem, (KeyRange.allHold_conditionsOf range row.1).symm.trans hcs,
      before.encodes_moveTo look.collection hkey hprimaryKey⟩
  · rw [← Scan.count_map_place hunique]
    exact hcount row ((KeyRange.allHold_conditionsOf range row.1).trans hcovers)
      fun look hlook => ⟨row, hpresent look hlook, rfl⟩
  · -- the place of a row is its index key alone, whatever comes second
    refine (Scan.count_map_place_of_isUnique hunique (Cursor.visited looks) (key, [])).symm.trans ?_
    refine hcount (key, []) ((KeyRange.allHold_conditionsOf range key).trans hcovers)
      fun look hlook => ?_
    obtain ⟨row, hrow, hkey⟩ := List.mem_map.1 (hpresent look hlook)
    refine ⟨row, hrow, Scan.place_eq_iff.2 ⟨hkey, ?_⟩⟩
    change d.isUnique = false → _
    rw [hunique]
    exact nofun

end CursorRef

/-! ### Three numbers that change under a cursor -/

/-- A collection as it is in the draft of a transaction. -/
def StoreRef.drafted (r : StoreRef) (e : Engine) : Collection :=
  ((e.draft? r.transaction).getD default).contents.get r.name

theorem StoreRef.collection_run_drafted {r : StoreRef} {e : Engine}
    (h : (e.draft? r.transaction).isSome = true) : r.collection e = .ok (r.drafted e) e := by
  obtain ⟨s, hs⟩ := Option.isSome_iff_exists.1 h
  rw [collection_of_draft hs, drafted, hs]
  rfl

/-- The states of a run are states that calls lead to. -/
theorem Course.isReachable_engine {t : Course} (h : t.IsReached) : t.engine.IsReachable := by
  induction h with
  | start => exact .initial
  | @next t c _ _ ih =>
      have hengine : (t.next c).engine = c.run.after t.engine := by
        unfold Course.next Effect.after
        cases c.run t.engine with
        | ok r d => rfl
        | error f d => rfl
      rw [hengine]
      exact .next c ih

namespace CursorRef

variable {e : Engine} {r : StoreRef} {looks : List Cursor.Look}

/-- A step to what is in the draft of a transaction after some calls. -/
theorem goesOn_of_drafted {cur next : Cursor} {d : Engine} (calls : List EngineCall)
    (hcalls : e.afterCalls calls = d) (hdone : cur.isDone = false)
    (hdraft : (d.draft? r.transaction).isSome = true) (hnext : (cur.step (r.drafted d) 1).2 = next)
    (hrest : GoesOn ⟨r, next⟩ d looks) : GoesOn ⟨r, cur⟩ e (⟨r.drafted d, next⟩ :: looks) := by
  subst hcalls hnext
  exact .step calls hdone (StoreRef.collection_run_drafted hdraft)
    (step_run (StoreRef.collection_run_drafted hdraft) (Nat.zero_le _)) hrest

/-- An upgrade with three numbers, two of them equal, and an index over them. -/
def numbersDrafted : Engine := (Course.numbersIndexed false).engine

/-- A cursor over the index, on the first of the equal numbers. -/
def numbersFirst : Cursor :=
  ((Cursor.start (some "value") [] .next false).step (Course.numbers.drafted numbersDrafted) 1).2

/-- The first number is deleted at the cursor, and a smaller and a greater one are stored. -/
def numbersReplaced : Engine := numbersDrafted.afterCalls
  [.deleteAtCursor ⟨Course.numbers, numbersFirst⟩, .put Course.numbers (.int 4) (.int 4),
    .put Course.numbers (.int 7) (.int 5)]

def numbersSecond : Cursor := (numbersFirst.step (Course.numbers.drafted numbersReplaced) 1).2

/-- The third number is deleted before the cursor comes to it. -/
def numbersDeleted : Engine := numbersReplaced.afterCalls [.delete Course.numbers (.int 3)]

def numbersThird : Cursor := (numbersSecond.step (Course.numbers.drafted numbersDeleted) 1).2

/-- A number is stored that the cursor would have passed. -/
def numbersPassed : Engine := numbersDeleted.afterCalls [.put Course.numbers (.int 3) (.int 6)]

/-- The looks of the cursor, of which the last finds nothing. -/
def numbersLooks : List Cursor.Look :=
  [⟨Course.numbers.drafted numbersDrafted, numbersFirst⟩,
    ⟨Course.numbers.drafted numbersReplaced, numbersSecond⟩,
    ⟨Course.numbers.drafted numbersDeleted, numbersThird⟩,
    ⟨Course.numbers.drafted numbersPassed,
      (numbersThird.step (Course.numbers.drafted numbersPassed) 1).2⟩]

/-- The entry of the second number. -/
def numbersEntry : Entry := ([16, 192, 20, 0, 0, 0, 0, 0, 0], [16, 192, 0, 0, 0, 0, 0, 0, 0])

theorem passes_numbers :
    Passes Course.numbers (some "value") .null .next false numbersDrafted numbersLooks := by
  have hread : Course.numbers.collection numbersDrafted =
      .ok (Course.numbers.drafted numbersDrafted) numbersDrafted :=
    StoreRef.collection_run_drafted (by decide +kernel)
  refine ⟨_, _, ⟨Course.numbers, numbersFirst⟩, numbersLooks.tail, hread, ?_, ?_, by
    simp only [numbersLooks, List.tail_cons]⟩
  · have hfirst : ((Cursor.start (some "value") [] .next false).step
        (Course.numbers.drafted numbersDrafted) 1).1 = .ok () := eq_ok_of_toOption (by decide +kernel)
    have hrange : KeyRange.ofQuery .null = .ok none := rfl
    rw [start_run hread hrange]
    change ending ((((Cursor.start (some "value") [] .next false).step
      (Course.numbers.drafted numbersDrafted) 1).1).map _) _ = _
    rw [hfirst]
    rfl
  · refine goesOn_of_drafted _ (d := numbersReplaced) rfl (by decide +kernel) (by decide +kernel) rfl ?_
    refine goesOn_of_drafted _ (d := numbersDeleted) rfl (by decide +kernel) (by decide +kernel) rfl ?_
    exact goesOn_of_drafted _ (d := numbersPassed) rfl (by decide +kernel) (by decide +kernel) rfl
      (.done (by decide +kernel))

/-- Of the numbers that are there at one time or another the cursor comes to three, and just once to the
one that is there all the time. -/
theorem meets_present_rows_once_numbers :
    numbersDrafted.IsReachable ∧
      Passes Course.numbers (some "value") .null .next false numbersDrafted numbersLooks ∧
        (∀ look ∈ numbersLooks, numbersEntry ∈ look.collection.rows (some "value")) ∧
          (Cursor.visited numbersLooks).length = 3 ∧
            (Cursor.visited numbersLooks).count numbersEntry = 1 := by
  have hreachable : numbersDrafted.IsReachable :=
    Course.isReachable_engine (Course.isReached_numbersIndexed false)
  have hpresent : ∀ look ∈ numbersLooks, numbersEntry ∈ look.collection.rows (some "value") := by
    decide +kernel
  have hdates : ∀ look ∈ numbersLooks, ∀ row ∈ look.collection.rows (some "value"),
      row.1.IsDateFree ∧ row.2.IsDateFree := by
    have hints : ∀ look ∈ numbersLooks, ∀ row ∈ look.collection.rows (some "value"),
        (∃ n ∈ List.range 8, (Value.int n).encodeKey.toOption = some row.1) ∧
          ∃ n ∈ List.range 8, (Value.int n).encodeKey.toOption = some row.2 := by decide +kernel
    intro look hlook row hrow
    obtain ⟨⟨k, _, hk⟩, ⟨p, _, hp⟩⟩ := hints look hlook row hrow
    exact ⟨⟨.int k, trivial, eq_ok_of_toOption hk⟩, ⟨.int p, trivial, eq_ok_of_toOption hp⟩⟩
  have hrange : KeyRange.ofQuery .null = .ok none := rfl
  obtain ⟨_, _, hrows, _⟩ := meets_present_rows_once hreachable hrange passes_numbers hdates
  exact ⟨hreachable, passes_numbers, hpresent, by decide +kernel, hrows rfl numbersEntry rfl hpresent⟩

end CursorRef
end RecordStore
