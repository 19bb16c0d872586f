import RecordStore.Collection.Cursor
import RecordStore.Proofs.Collection.Map

/-!
What a scan goes over. The rows that a cursor visits are those in its range, in the order of its
direction, and in a unique direction of the rows with one index key just that with the lowest key of a
record. A cursor has before it what is left of them, and each step drops as many as it is told.
-/

namespace RecordStore
namespace Scan

variable {rows E : List Entry} {range : Option (KeyRange Value)} {d : Direction}

/-- Some rows are those in a range, in ascending or descending order; where keys are to be distinct,
of each index key just that with the lowest key of a record. -/
structure Selects (rows : List Entry) (range : Option (KeyRange Value)) (descending distinct : Bool)
    (E : List Entry) : Prop where
  sorted : E.Pairwise fun a b => (if descending then Entry.lt b a else Entry.lt a b) = true
  mem_iff : ∀ e, e ∈ E ↔ e ∈ rows ∧ KeyRange.covers range e.1 = true ∧
    (distinct = true → ∀ other ∈ rows, other.1 = e.1 → Bytes.lt other.2 e.2 = false)

/-! ### One row for each key -/

theorem sublist_firstPerKey (rows : List Entry) : (firstPerKey rows).Sublist rows := by
  fun_induction firstPerKey rows with
  | case1 => exact .slnil
  | case2 e => exact .refl _
  | case3 a b rest _ _ _ => exact List.singleton_sublist.2 List.mem_cons_self
  | case4 a b rest _ first others heq ih =>
      rw [heq] at ih
      exact ((List.sublist_cons_self first others).trans ih).cons_cons a
  | case5 a b rest _ ih => exact ih.cons_cons a

theorem exists_firstPerKey_cons (e : Entry) (rest : List Entry) :
    ∃ others, firstPerKey (e :: rest) = e :: others := by
  cases rest with
  | nil => exact ⟨[], rfl⟩
  | cons b rest =>
      unfold firstPerKey
      split
      · split
        · exact ⟨_, rfl⟩
        · exact ⟨_, rfl⟩
      · exact ⟨_, rfl⟩

theorem key_le_of_lt {a b : Entry} (h : Entry.lt a b = true) :
    Bytes.lt a.1 b.1 = true ∨ a.1 = b.1 ∧ Bytes.lt a.2 b.2 = true := by
  rw [Entry.lt, Bool.or_eq_true, Bool.and_eq_true, beq_iff_eq] at h
  exact h

/-- The rows that are left of ascending ones have ascending index keys. -/
theorem pairwise_firstPerKey (h : rows.Pairwise fun a b => Entry.lt a b = true) :
    (firstPerKey rows).Pairwise fun a b => Bytes.lt a.1 b.1 = true := by
  fun_induction firstPerKey rows with
  | case1 => exact .nil
  | case2 e => exact List.pairwise_singleton _ _
  | case3 a b rest _ _ _ => exact List.pairwise_singleton _ _
  | case4 a b rest hkey first others heq ih =>
      -- the first of the others has the key of `a`, so the rest is above it
      specialize ih (List.pairwise_cons.1 h).2
      rw [heq, List.pairwise_cons] at ih
      obtain ⟨_, hhead⟩ := exists_firstPerKey_cons b rest
      rw [heq] at hhead
      cases hhead
      exact List.pairwise_cons.2 ⟨fun e he => hkey ▸ ih.1 e he, ih.2⟩
  | case5 a b rest hkey ih =>
      obtain ⟨hfirst, hrest⟩ := List.pairwise_cons.1 h
      have hab : Bytes.lt a.1 b.1 = true :=
        (key_le_of_lt (hfirst b List.mem_cons_self)).resolve_right fun hsame => hkey hsame.1
      refine List.pairwise_cons.2 ⟨fun e he => ?_, ih hrest⟩
      rcases List.mem_cons.1 ((sublist_firstPerKey _).subset he) with rfl | he
      · exact hab
      · rcases key_le_of_lt ((List.pairwise_cons.1 hrest).1 e he) with hlt | ⟨heq, _⟩
        · exact Bytes.isOrder.trans _ _ _ hab hlt
        · exact heq ▸ hab

/-- For each row one with its index key is left, and that has no greater key of a record. -/
theorem exists_mem_firstPerKey (h : rows.Pairwise fun a b => Entry.lt a b = true) {e : Entry}
    (he : e ∈ rows) : ∃ f ∈ firstPerKey rows, f.1 = e.1 ∧ Bytes.lt e.2 f.2 = false := by
  fun_induction firstPerKey rows with
  | case1 => cases he
  | case2 a =>
      obtain rfl := List.mem_singleton.1 he
      exact ⟨e, he, rfl, Bytes.isOrder.irrefl _⟩
  | case3 a b rest _ heq _ =>
      obtain ⟨_, hhead⟩ := exists_firstPerKey_cons b rest
      rw [heq] at hhead
      cases hhead
  | case4 a b rest hkey first others heq ih =>
      obtain ⟨hfirst, hrest⟩ := List.pairwise_cons.1 h
      obtain ⟨_, hhead⟩ := exists_firstPerKey_cons b rest
      rw [heq] at hhead
      cases hhead
      rcases List.mem_cons.1 he with rfl | he
      · exact ⟨e, List.mem_cons_self, rfl, Bytes.isOrder.irrefl _⟩
      · obtain ⟨f, hf, hfe, hle⟩ := ih hrest he
        rw [heq] at hf
        rcases List.mem_cons.1 hf with rfl | hf
        · -- `a` stands for `b`, and its record has the lower key
          have hlt : Bytes.lt a.2 f.2 = true := by
            rcases key_le_of_lt (hfirst f List.mem_cons_self) with hlt | ⟨_, hlt⟩
            · rw [hkey, Bytes.isOrder.irrefl] at hlt
              cases hlt
            · exact hlt
          refine ⟨a, List.mem_cons_self, hkey.trans hfe, ?_⟩
          by_contra hea
          rw [Bytes.isOrder.trans _ _ _ (Bool.not_eq_false _ ▸ hea) hlt] at hle
          cases hle
        · exact ⟨f, List.mem_cons_of_mem _ hf, hfe, hle⟩
  | case5 a b rest _ ih =>
      rcases List.mem_cons.1 he with rfl | he
      · exact ⟨e, List.mem_cons_self, rfl, Bytes.isOrder.irrefl _⟩
      · obtain ⟨f, hf, hfe, hle⟩ := ih (List.pairwise_cons.1 h).2 he
        exact ⟨f, List.mem_cons_of_mem _ hf, hfe, hle⟩

/-- What is left of ascending rows is, of each index key, the row with the lowest key of a record. -/
theorem mem_firstPerKey_iff (h : rows.Pairwise fun a b => Entry.lt a b = true) {e : Entry} :
    e ∈ firstPerKey rows ↔
      e ∈ rows ∧ ∀ other ∈ rows, other.1 = e.1 → Bytes.lt other.2 e.2 = false := by
  have hnodup : ((firstPerKey rows).map Prod.fst).Nodup :=
    List.pairwise_map.2 ((pairwise_firstPerKey h).imp fun hlt =>
      OrderedRows.ne_of_lt Bytes.isOrder hlt)
  have hinjective {a b : Entry} (ha : a ∈ firstPerKey rows) (hb : b ∈ firstPerKey rows)
      (hab : a.1 = b.1) : a = b := List.inj_on_of_nodup_map hnodup ha hb hab
  constructor
  · intro he
    refine ⟨(sublist_firstPerKey rows).subset he, fun other hother hkey => ?_⟩
    obtain ⟨f, hf, hfother, hle⟩ := exists_mem_firstPerKey h hother
    rw [hinjective hf he (hfother.trans hkey)] at hle
    exact hle
  · rintro ⟨he, hlowest⟩
    obtain ⟨f, hf, hfe, hle⟩ := exists_mem_firstPerKey h he
    have heq : f.2 = e.2 :=
      Bytes.isOrder.connected _ _ (hlowest f ((sublist_firstPerKey rows).subset hf) hfe) hle
    rw [show e = f from Prod.ext hfe.symm heq.symm]
    exact hf

/-! ### The order of visits -/

theorem pairwise_ordered (h : rows.Pairwise fun a b => Entry.lt a b = true) (d : Direction) :
    (ordered d rows).Pairwise fun a b => isBeyond d a b = true := by
  have hkept : (if d.isUnique then firstPerKey rows else rows).Pairwise fun a b =>
      (if d.isUnique then Bytes.lt a.1 b.1 else Entry.lt a b) = true := by
    cases d.isUnique with
    | true => exact pairwise_firstPerKey h
    | false => exact h
  unfold ordered isBeyond
  cases d.isForward with
  | true => exact hkept
  | false => exact List.pairwise_reverse.2 hkept

theorem mem_ordered_iff (h : rows.Pairwise fun a b => Entry.lt a b = true) {e : Entry} :
    e ∈ ordered d rows ↔ e ∈ rows ∧
      (d.isUnique = true → ∀ other ∈ rows, other.1 = e.1 → Bytes.lt other.2 e.2 = false) := by
  have hkept : e ∈ (if d.isUnique then firstPerKey rows else rows) ↔ e ∈ rows ∧
      (d.isUnique = true → ∀ other ∈ rows, other.1 = e.1 → Bytes.lt other.2 e.2 = false) := by
    cases d.isUnique with
    | true =>
        rw [if_pos rfl, mem_firstPerKey_iff h]
        exact and_congr_right fun _ => ⟨fun hl _ => hl, fun hl => hl rfl⟩
    | false => exact ⟨fun he => ⟨he, nofun⟩, And.left⟩
  rw [← hkept]
  unfold ordered
  cases d.isForward with
  | true => rfl
  | false => exact List.mem_reverse

theorem lt_of_isBeyond {a b : Entry} (h : isBeyond d a b = true) :
    (if d.isForward then Entry.lt a b else Entry.lt b a) = true := by
  unfold isBeyond at h
  have hlt {a b : Entry} (hab : (if d.isUnique then Bytes.lt a.1 b.1 else Entry.lt a b) = true) :
      Entry.lt a b = true := by
    cases hunique : d.isUnique with
    | true =>
        rw [hunique] at hab
        rw [Entry.lt, Bool.or_eq_true]
        exact .inl hab
    | false =>
        rw [hunique] at hab
        exact hab
  cases hforward : d.isForward with
  | true =>
      rw [hforward] at h
      exact hlt h
  | false =>
      rw [hforward] at h
      exact hlt h

/-- No row comes after itself or after one that comes after it. -/
theorem isBeyond_asymm {a b : Entry} (h : isBeyond d a b = true) : isBeyond d b a = false := by
  by_contra hba
  have hab := lt_of_isBeyond h
  have hba := lt_of_isBeyond (Bool.not_eq_false _ ▸ hba)
  cases hforward : d.isForward with
  | true =>
      rw [hforward] at hab hba
      have hself := Entry.isOrder.trans _ _ _ hab hba
      rw [Entry.isOrder.irrefl] at hself
      cases hself
  | false =>
      rw [hforward] at hab hba
      have hself := Entry.isOrder.trans _ _ _ hab hba
      rw [Entry.isOrder.irrefl] at hself
      cases hself

theorem isBeyond_trans {a b e : Entry} (hab : isBeyond d a b = true)
    (hbe : isBeyond d b e = true) : isBeyond d a e = true := by
  cases d with
  | next => exact Entry.isOrder.trans _ _ _ hab hbe
  | nextUnique => exact Bytes.isOrder.trans _ _ _ hab hbe
  | prev => exact Entry.isOrder.trans _ _ _ hbe hab
  | prevUnique => exact Bytes.isOrder.trans _ _ _ hbe hab

/-- Before its first row a cursor has all rows of its range before it. -/
theorem selects_remaining (h : rows.Pairwise fun a b => Entry.lt a b = true)
    (range : Option (KeyRange Value)) (d : Direction) :
    Selects rows range (!d.isForward) d.isUnique
      (remaining (KeyRange.conditionsOf range) d none rows) where
  sorted := by
    refine ((pairwise_ordered h d).imp fun {a b} hab => ?_).filter _
    have hlt := lt_of_isBeyond hab
    cases hforward : d.isForward with
    | true =>
        rw [hforward] at hlt
        exact hlt
    | false =>
        rw [hforward] at hlt
        exact hlt
  mem_iff e := by
    rw [remaining, List.mem_filter, mem_ordered_iff h, KeyRange.allHold_conditionsOf]
    simp only [Option.all_none, Bool.and_true]
    exact ⟨fun ⟨⟨he, hl⟩, hc⟩ => ⟨he, hc, hl⟩, fun ⟨he, hc, hl⟩ => ⟨⟨he, hl⟩, hc⟩⟩

theorem length_remaining_le (cs : List Condition) (d : Direction) (position : Option Entry)
    (rows : List Entry) : (remaining cs d position rows).length ≤ rows.length := by
  refine (List.length_filter_le _ _).trans ?_
  have hkept : (if d.isUnique then firstPerKey rows else rows).length ≤ rows.length := by
    cases d.isUnique with
    | true => exact (sublist_firstPerKey rows).length_le
    | false => exact le_rfl
  unfold ordered
  cases d.isForward with
  | true => exact hkept
  | false => exact List.length_reverse.le.trans hkept

/-- On a row a cursor has the rows after it before it, wherever it was before. -/
theorem remaining_some (h : rows.Pairwise fun a b => Entry.lt a b = true) {cs : List Condition}
    {position : Option Entry} {pre rest : List Entry} {e : Entry}
    (hall : remaining cs d position rows = pre ++ e :: rest) : remaining cs d (some e) rows = rest := by
  have hahead : position.all (isBeyond d · e) = true := by
    have he : e ∈ remaining cs d position rows := hall ▸ List.mem_append_right pre List.mem_cons_self
    exact (Bool.and_eq_true_iff.1 (List.mem_filter.1 he).2).2
  have hfilter : remaining cs d (some e) rows =
      (remaining cs d position rows).filter (isBeyond d e) := by
    rw [remaining, remaining, List.filter_filter]
    refine List.filter_congr fun a _ => ?_
    rw [Option.all_some, Bool.and_left_comm]
    congr 1
    cases hbeyond : isBeyond d e a with
    | false => rw [Bool.false_and]
    | true =>
        -- what is beyond the row is beyond the position
        have hall : position.all (isBeyond d · a) = true :=
          (Option.all_eq_true _ _).2 fun p hp =>
            isBeyond_trans ((Option.all_eq_true _ _).1 hahead p hp) hbeyond
        rw [hall, Bool.and_true]
  have hsorted : (pre ++ e :: rest).Pairwise fun a b => isBeyond d a b = true := by
    rw [← hall]
    exact (pairwise_ordered h d).filter _
  obtain ⟨_, hrest, hpre⟩ := List.pairwise_append.1 hsorted
  rw [hfilter, hall, List.filter_append, List.filter_cons_of_neg, List.filter_eq_nil_iff.2,
    List.nil_append, List.filter_eq_self.2]
  · exact (List.pairwise_cons.1 hrest).1
  · intro a ha
    rw [isBeyond_asymm (hpre a ha e List.mem_cons_self)]
    exact Bool.false_ne_true
  · intro hself
    rw [isBeyond_asymm hself] at hself
    cases hself

end Scan

theorem Collection.ascending_rows {c : Collection} {flawed : String → Prop}
    (h : c.IsConsistent flawed) (source : Option String)
    (hsource : ∀ name ∈ source, ¬flawed name) :
    (c.rows source).Pairwise fun a b => Entry.lt a b = true := by
  cases source with
  | none =>
      refine List.pairwise_map.2 (h.ascending.imp fun hlt => ?_)
      rw [Entry.lt, hlt, Bool.true_or]
  | some name =>
      rw [rows]
      cases hi : c.index? name with
      | none => exact .nil
      | some i =>
          have hname : i.name = name := by
            have hfound := List.find?_some hi
            exact beq_iff_eq.1 hfound
          exact (h.indexed i (List.mem_of_find?_eq_some hi) (hname ▸ hsource name rfl)).ascending

/-! ### Cursors -/

/-- A row can be shown: its keys can be decoded, and its record can be read. -/
structure Collection.CanShow (c : Collection) (e : Entry) : Prop where
  key : ∃ k, Key.decode e.1 = .ok k
  primaryKey : ∃ k, Key.decode e.2 = .ok k
  value : ∃ v, c.load e.2 = .ok v

namespace Cursor

variable {origin cur : Cursor} {c : Collection} {rest : List Entry} {e : Entry}

/-- All rows that a cursor visits. -/
def visits (cur : Cursor) (c : Collection) : List Entry :=
  Scan.remaining cur.conditions cur.direction none (c.rows cur.source)

/-- Two cursors differ at most in where they are. -/
structure SameScan (origin cur : Cursor) : Prop where
  source : cur.source = origin.source
  conditions : cur.conditions = origin.conditions
  direction : cur.direction = origin.direction
  keyOnly : cur.keyOnly = origin.keyOnly

/-- A cursor stands on a row, which it shows, or is done. -/
def StandsOn (cur : Cursor) (c : Collection) : Option Entry → Prop
  | none => cur.isDone = true
  | some e => cur.isDone = false ∧ cur.position = some e ∧ Key.decode e.1 = .ok cur.key ∧
    (cur.keyOnly = false → c.load e.2 = .ok cur.value)

/-- A cursor has come so far that some rows are left, of which it stands on the first. -/
structure IsAt (origin cur : Cursor) (c : Collection) (rest : List Entry) : Prop where
  same : SameScan origin cur
  suffix : rest <:+ origin.visits c
  stands : cur.StandsOn c rest.head?

theorem exists_moveTo (hsame : SameScan origin cur) (hdone : cur.isDone = false) (he : c.CanShow e) :
    ∃ next, cur.moveTo c e = (.ok (), next) ∧ SameScan origin next ∧ next.StandsOn c (some e) := by
  obtain ⟨k, hk⟩ := he.key
  obtain ⟨p, hp⟩ := he.primaryKey
  obtain ⟨v, hv⟩ := he.value
  unfold moveTo
  rw [hk]
  dsimp only
  rw [hp]
  dsimp only
  unfold showValue
  cases hkeyOnly : cur.keyOnly with
  | true =>
      exact ⟨_, if_pos rfl, ⟨hsame.source, hsame.conditions, hsame.direction,
        hkeyOnly ▸ hsame.keyOnly⟩, hdone, rfl, hk, nofun⟩
  | false =>
      rw [hv]
      exact ⟨_, if_neg Bool.false_ne_true, ⟨hsame.source, hsame.conditions, hsame.direction,
        hkeyOnly ▸ hsame.keyOnly⟩, hdone, rfl, hk, fun _ => hv⟩

/-- A cursor that is moved to what is `offset` rows after the next one. -/
theorem exists_step_of_fetch (hsame : SameScan origin cur) (hdone : cur.isDone = false)
    (hshow : ∀ e ∈ origin.visits c, c.CanShow e) {next : List Entry}
    (hsuffix : next <:+ origin.visits c) {count : Nat} (hfetch : cur.fetch c (count - 1) = next.head?) :
    ∃ moved, cur.step c count = (.ok (), moved) ∧ IsAt origin moved c next := by
  unfold step
  rw [hfetch]
  cases hnext : next with
  | nil =>
      exact ⟨_, rfl, ⟨hsame.source, hsame.conditions, hsame.direction, hsame.keyOnly⟩,
        List.nil_suffix, rfl⟩
  | cons e rest =>
      rw [hnext] at hsuffix
      obtain ⟨moved, hmoved, hsame, hstands⟩ :=
        exists_moveTo hsame hdone (hshow e (hsuffix.subset List.mem_cons_self))
      exact ⟨moved, hmoved, hsame, hsuffix, hstands⟩

/-- The first step leads to the first row. -/
theorem exists_step_start (source : Option String) (cs : List Condition) (d : Direction)
    (keyOnly : Bool) (hshow : ∀ e ∈ (start source cs d keyOnly).visits c, c.CanShow e) :
    ∃ cur, (start source cs d keyOnly).step c 1 = (.ok (), cur) ∧
      IsAt (start source cs d keyOnly) cur c ((start source cs d keyOnly).visits c) :=
  exists_step_of_fetch ⟨rfl, rfl, rfl, rfl⟩ rfl hshow (List.suffix_refl _)
    (List.head?_eq_getElem? (l := _)).symm

/-- A step from a row drops as many rows as it is told. -/
theorem exists_step (hrows : (c.rows origin.source).Pairwise fun a b => Entry.lt a b = true)
    (hshow : ∀ e ∈ origin.visits c, c.CanShow e) (h : IsAt origin cur c (e :: rest)) {count : Nat}
    (hcount : 0 < count) :
    ∃ next, cur.step c count = (.ok (), next) ∧ IsAt origin next c ((e :: rest).drop count) := by
  obtain ⟨hdone, hposition, _⟩ := h.stands
  obtain ⟨pre, hpre⟩ := h.suffix
  refine exists_step_of_fetch h.same hdone hshow ((List.drop_suffix _ _).trans h.suffix) ?_
  have hremaining := Scan.remaining_some hrows hpre.symm
  obtain ⟨n, rfl⟩ := Nat.exists_eq_add_one_of_ne_zero hcount.ne'
  rw [fetch, h.same.conditions, h.same.direction, h.same.source, hposition, hremaining,
    List.drop_succ_cons, Nat.add_sub_cancel, List.head?_drop]

end Cursor
end RecordStore
