import RecordStore.Proofs.Query.Modifying

/-!
Queries that modify the records which they scan by an index. A record that is written back may get
another index key, and where that lies ahead of the cursor in its range, the query comes to the record
once more. As long as none does, a write leaves the rows ahead of the cursor alone, and each record is
modified once.
-/

namespace RecordStore

open Effect

/-- An index for single keys has no two of them for a record. -/
theorem IndexSpec.eq_of_mem_keysFor {spec : IndexSpec} {v : Value} {keys : List Bytes} {a b : Bytes}
    (hsingle : spec.multiEntry = false) (h : spec.keysFor v = .ok keys) (ha : a ∈ keys) (hb : b ∈ keys) :
    a = b := by
  have hone : keys = [] ∨ ∃ k, keys = [k] := by
    unfold keysFor at h
    rw [hsingle] at h
    split at h
    · cases h
    · split at h
      · cases h
        exact .inl rfl
      · next heq => cases heq
      · next heq => cases heq
      · split at h
        · obtain ⟨k, _, rfl⟩ := map_eq_ok_iff.1 h
          exact .inr ⟨k, rfl⟩
        · cases h
          exact .inl rfl
  rcases hone with rfl | ⟨k, rfl⟩
  · cases ha
  · rw [List.mem_singleton.1 ha, List.mem_singleton.1 hb]

namespace Scan

variable {d : Direction} {rows others : List Entry} {p : Entry}

/-- The rows ahead of a position are the same in two sources that have the same rows ahead of it in the
range, whatever else they have. -/
theorem remaining_congr {cs : List Condition} (hrows : rows.Pairwise fun a b => Entry.lt a b = true)
    (hothers : others.Pairwise fun a b => Entry.lt a b = true)
    (hsame : ∀ e, Condition.allHold cs e.1 = true → isBeyond d p e = true → (e ∈ rows ↔ e ∈ others)) :
    remaining cs d (some p) rows = remaining cs d (some p) others := by
  have hsorted (rows : List Entry) (hrows : rows.Pairwise fun a b => Entry.lt a b = true) :
      (remaining cs d (some p) rows).Pairwise fun a b => isBeyond d a b = true :=
    (pairwise_ordered hrows d).filter _
  have : Std.Antisymm fun a b : Entry => isBeyond d a b = true := ⟨fun a b hab hba => by
    rw [isBeyond_asymm hab] at hba
    cases hba⟩
  have : Std.Irrefl fun a b : Entry => isBeyond d a b = true := ⟨fun a ha => by
    rw [isBeyond_asymm ha] at ha
    cases ha⟩
  apply (hsorted rows hrows).eq_of_mem_iff (hsorted others hothers)
  intro e
  simp only [remaining, List.mem_filter, Option.all_some, Bool.and_eq_true, mem_ordered_iff hrows,
    mem_ordered_iff hothers]
  apply and_congr_left
  rintro ⟨hcs, hbeyond⟩
  -- in a unique direction all rows with the key are ahead together, or none is
  have hlowest (hunique : d.isUnique = true) (o : Entry) (hkey : o.1 = e.1) : o ∈ rows ↔ o ∈ others := by
    apply hsame o (hkey ▸ hcs)
    rw [isBeyond_congr_right (place_eq_iff.2 ⟨hkey, by simp [hunique]⟩)]
    exact hbeyond
  refine and_congr (hsame e hcs hbeyond) (forall_congr' fun hunique => forall_congr' fun o => ?_)
  constructor
  · intro h ho hkey
    exact h ((hlowest hunique o hkey).2 ho) hkey
  · intro h ho hkey
    exact h ((hlowest hunique o hkey).1 ho) hkey

end Scan

/-! ### The rows of an index -/

namespace Collection

variable {c d : Collection} {name : String} {spec : IndexSpec} {row : Entry}

/-- A sound collection has an index of some name and kind. -/
structure IsIndexedBy (c : Collection) (name : String) (spec : IndexSpec) : Prop where
  sound : c.IsSound fun _ => False
  found : (c.index? name).map Index.spec = some spec

/-- The rows of an index that agrees with the records are the index keys of these. -/
theorem mem_rows_iff_of_indexes {flawed : String → Prop} {i : Index} (hc : c.IsConsistent flawed)
    (hi : c.index? name = some i) (h : i.Indexes c.records) : row ∈ c.rows (some name) ↔
      ∃ v keys, c.view row.2 = some v ∧ i.spec.keysFor v = .ok keys ∧ row.1 ∈ keys := by
  have hrows : c.rows (some name) = i.entries := by simp [rows, hi]
  rw [hrows, h.mem_iff]
  constructor
  · rintro ⟨text, v, keys, hmem, hv, hkeys, hkey⟩
    exact ⟨v, keys, (view_eq_some_iff hc).2 ⟨text, hmem, hv⟩, hkeys, hkey⟩
  · rintro ⟨v, keys, hview, hkeys, hkey⟩
    obtain ⟨text, hmem, hv⟩ := (view_eq_some_iff hc).1 hview
    exact ⟨text, v, keys, hmem, hv, hkeys, hkey⟩

/-- The rows of an index are the index keys of the records. -/
theorem IsIndexedBy.mem_rows_iff (h : c.IsIndexedBy name spec) : row ∈ c.rows (some name) ↔
    ∃ v keys, c.view row.2 = some v ∧ spec.keysFor v = .ok keys ∧ row.1 ∈ keys := by
  obtain ⟨i, hi, rfl⟩ := Option.map_eq_some_iff.1 h.found
  have hindexes := h.sound.consistent.indexed i (List.mem_of_find?_eq_some hi) id
  exact mem_rows_iff_of_indexes h.sound.consistent hi hindexes

/-- To write a record back changes no index but in its entries. -/
theorem IsIndexedBy.of_writesBack (h : c.IsIndexedBy name spec) {collection : String} {keying : Keying}
    {key record : Value} (hkeying : keying.IsTagFree)
    (hd : c.WritesBack collection keying key record d) : d.IsIndexedBy name spec := by
  obtain ⟨k, hwrite⟩ := hd.written
  refine ⟨isSound_write h.sound hkeying hwrite, ?_⟩
  rcases write_cases hwrite with ⟨_, hf, _⟩ | ⟨_, _, _, c', p, _, _, hsame, _, _, rfl⟩
  · cases hf
  · have hnames : (fun i : Index => i.name == name) ∘ p.updateIndex = fun i => i.name == name := by
      funext i
      simp [name_spec_updateIndex]
    have hspecs : Index.spec ∘ p.updateIndex = Index.spec := by
      funext i
      simp [name_spec_updateIndex]
    rw [index?, carryOut, List.find?_map, hnames, Option.map_map, hspecs, hsame.indexes]
    exact h.found

/-- No two rows of an index for single keys lead to one record. -/
theorem IsIndexedBy.nodup (h : c.IsIndexedBy name spec) (hsingle : spec.multiEntry = false)
    {rows : List Entry} (hrows : ∀ row ∈ rows, row ∈ c.rows (some name)) (hnodup : rows.Nodup) :
    (rows.map Prod.snd).Nodup := by
  apply List.Nodup.map_on _ hnodup
  intro a ha b hb heq
  obtain ⟨v, keys, hv, hkeys, hkey⟩ := h.mem_rows_iff.1 (hrows a ha)
  obtain ⟨w, keys', hw, hkeys', hkey'⟩ := h.mem_rows_iff.1 (hrows b hb)
  rw [heq] at hv
  cases hv.symm.trans hw
  cases hkeys.symm.trans hkeys'
  exact Prod.ext (IndexSpec.eq_of_mem_keysFor hsingle hkeys hkey hkey') heq

end Collection

namespace Cursor

variable {origin : Cursor} {name : String} {spec : IndexSpec} {row : Entry} {v : Value}

/-- A cursor over an index is safe. -/
theorem safeUnder_isIndexedBy (hsource : origin.source = some name) (spec : IndexSpec) {keying : Keying}
    (hkeying : keying.IsTagFree) : origin.SafeUnder keying (·.IsIndexedBy name spec) where
  records _ hc := hc.sound.consistent.ascending
  rows _ hc := Collection.ascending_rows hc.sound.consistent origin.source nofun
  there _ hc _ hrow := by
    rw [hsource] at hrow
    obtain ⟨_, _, hv, _⟩ := hc.mem_rows_iff.1 hrow
    exact (Collection.isStored_of_view hv).2.2
  written _ _ _ _ _ hc hwrites := hc.of_writesBack hkeying hwrites

/-- To replace a record leaves the rows ahead alone, if none of its new index keys is ahead. -/
theorem steady_of_behind (hsource : origin.source = some name) (hsingle : spec.multiEntry = false)
    (hbehind : ∀ keys, spec.keysFor v = .ok keys → ∀ k ∈ keys,
      Condition.allHold origin.conditions k = true →
        Scan.isBeyond origin.direction row (k, row.2) = false) :
    origin.Steady (·.IsIndexedBy name spec) row v := by
  intro c d hc hd hrow hreplaces
  have hascending (c : Collection) (hc : c.IsIndexedBy name spec) :
      (c.rows (some name)).Pairwise fun a b => Entry.lt a b = true :=
    Collection.ascending_rows hc.sound.consistent _ nofun
  rw [hsource] at hrow ⊢
  apply Scan.remaining_congr (hascending d hd) (hascending c hc)
  intro e hcs hbeyond
  rw [hd.mem_rows_iff, hc.mem_rows_iff]
  by_cases hrecord : e.2 = row.2
  · -- an entry of the record itself: the old one is where the cursor is, and the new one is not ahead
    constructor
    · rintro ⟨w, keys, hw, hkeys, hkey⟩
      rw [hrecord, hreplaces.own] at hw
      cases hw
      have hnot := hbehind keys hkeys e.1 hkey hcs
      rw [← hrecord, hbeyond] at hnot
      cases hnot
    · rintro ⟨w, keys, hw, hkeys, hkey⟩
      obtain ⟨w', keys', hw', hkeys', hkey'⟩ := hc.mem_rows_iff.1 hrow
      rw [hrecord] at hw
      cases hw.symm.trans hw'
      cases hkeys.symm.trans hkeys'
      have heq : e = row := Prod.ext (IndexSpec.eq_of_mem_keysFor hsingle hkeys hkey hkey') hrecord
      rw [heq] at hbeyond
      rw [Scan.isBeyond_asymm hbeyond] at hbeyond
      cases hbeyond
  · rw [Collection.view, hreplaces.others _ hrecord]
    rfl

end Cursor

namespace Query

variable {q : Query} {c : Collection} {e : Engine} {db : Nat} {name : String} {query : Value}
  {range : Option (KeyRange Value)} {rule : Rule} {i : Index}

theorem view_of_mem_chosen {E : List Entry} {r : Bytes × Value} (h : r ∈ q.chosen c E) :
    c.view r.1 = some r.2 := by
  have haccepted : r ∈ q.accepted c (E.drop q.skip) := by
    unfold chosen at h
    split at h
    · exact h
    · exact List.mem_of_mem_take h
  obtain ⟨row, _, hrow⟩ := List.mem_filterMap.1 (List.mem_of_mem_filter haccepted)
  obtain ⟨v, hv, rfl⟩ := Option.map_eq_some_iff.1 hrow
  exact hv

/-- No record gets by the query an index key that is in the range and comes after the one that it has. -/
def StaysBehind (q : Query) (i : Index) (range : Option (KeyRange Value)) (R : List (Bytes × Value)) :
    Prop :=
  ∀ r ∈ R, ∀ v keys keys', i.spec.keysFor r.2 = .ok keys → q.remade r.2 = .ok v →
    i.spec.keysFor v = .ok keys' → ∀ k ∈ keys, ∀ k' ∈ keys', KeyRange.covers range k' = true →
      (if q.descending then Bytes.lt k' k else Bytes.lt k k') = false

/-- A row with another index key and the same record is ahead if the index key is. -/
theorem isBeyond_same_record (q : Query) (k k' b : Bytes) : Scan.isBeyond q.direction (k, b) (k', b) =
    if q.descending then Bytes.lt k' k else Bytes.lt k k' := by
  have hself : Bytes.lt b b = false := Bytes.isOrder.irrefl b
  unfold direction
  cases q.descending <;> cases q.distinct <;>
    simp [Scan.isBeyond, Direction.isForward, Direction.isUnique, Entry.lt, hself]

/-- How the index over ages gets its keys. -/
def ageSpec : IndexSpec := ⟨some (.single "age"), true, false⟩

theorem isSound_people : people.IsSound fun _ => False :=
  (Course.isSound_of_isReached isReached_peopleUpgraded).engine.kept "path" "people"

theorem exists_ageIndex : ∃ i, people.index? "age" = some i ∧ i.name = "age" ∧ i.spec = ageSpec := by
  have hfound : ((people.index? "age").map fun i =>
      (i.name, i.spec.keyPath, i.spec.unique, i.spec.multiEntry)) =
        some ("age", some (.single "age"), true, false) := by decide +kernel
  obtain ⟨i, hi, hspec⟩ := Option.map_eq_some_iff.1 hfound
  obtain ⟨⟨keyPath, unique, multiEntry⟩, hname⟩ : ∃ spec, i.spec = spec := ⟨_, rfl⟩
  simp only [hname, Prod.mk.injEq] at hspec
  obtain ⟨hi', rfl, rfl, rfl⟩ := hspec
  exact ⟨i, hi, hi', hname⟩

/-- Whether a person who is made older comes after the place in the index that they have. -/
def movesUp (years : Int) (v : Value) : Bool :=
  match (ageSpec.keysFor v).toOption,
    ((older (.text "age") true years).remade v >>= ageSpec.keysFor).toOption with
  | some keys, some keys' => keys.all fun k => keys'.all fun k' => !Bytes.lt k' k
  | _, _ => true

/-- In descending order the people who are made older are behind. -/
theorem staysBehind_older {i : Index} (hspec : i.spec = ageSpec) (E : List Entry) :
    (older (.text "age") true 10).StaysBehind i none
      ((older (.text "age") true 10).chosen people E) := by
  have hall : ∀ b ∈ people.records.map Prod.fst, (people.view b).all (movesUp 10) = true := by
    decide +kernel
  intro r hr v keys keys' hkeys hv hkeys' k hk k' hk' _
  have hview := view_of_mem_chosen hr
  have hup := hall r.1 (Collection.isStored_of_view hview).2.2
  rw [hspec] at hkeys hkeys'
  rw [hview, Option.all_some, movesUp, hkeys, hv, ok_bind, hkeys'] at hup
  have hbehind := List.all_eq_true.1 (List.all_eq_true.1 hup k hk) k' hk'
  simpa [older] using hbehind

/-- A query that makes people much older in ascending order, and takes five of them. -/
def muchOlder : Query := { older (.text "age") false 100 with window := some ⟨0, 5⟩ }

end Query
end RecordStore
