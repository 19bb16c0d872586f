import Mathlib.Data.Set.Card
import RecordStore.Collection.Scan
import RecordStore.Proofs.Collection.Writing

/-!
A collection as a map from encoded keys to values. Writing, deleting and clearing do to the map what
they should, and what is found and counted in a range of keys is told by the map alone.
-/

namespace RecordStore

/-- What is under each encoded key. -/
abbrev RecordMap := Bytes → Option Value

/-- A key lies in the range of a query, which may be absent. -/
def KeyRange.covers (range : Option (KeyRange Value)) (key : Bytes) : Bool :=
  range.all (·.admits key)

namespace RecordMap

/-- Puts the clone of a value under a key. A single key path that finds nothing in the clone has the
key written into it. -/
def put (m : RecordMap) (path : Option KeyPath) (value key : Value) : RecordMap :=
  match key.encodeKey, value.clone with
  | .ok encoded, .ok record =>
    match Collection.recordWith path record key with
    | .ok v => Function.update m encoded (some v)
    | .error _ => m
  | _, _ => m

/-- Removes the keys in a range. -/
def erase (m : RecordMap) (range : Option (KeyRange Value)) : RecordMap := fun key =>
  if KeyRange.covers range key then none else m key

/-- The keys in a range. -/
def keysIn (m : RecordMap) (range : Option (KeyRange Value)) : Set Bytes :=
  {key | (m key).isSome = true ∧ KeyRange.covers range key = true}

/-- What is under the least key in a range, and null if there is none. -/
def IsFirst (m : RecordMap) (range : Option (KeyRange Value)) (v : Value) : Prop :=
  (∃ key ∈ m.keysIn range, m key = some v ∧ ∀ other ∈ m.keysIn range, Bytes.lt other key = false) ∨
    m.keysIn range = ∅ ∧ v = .null

end RecordMap

/-! ### Ranges -/

theorem KeyRange.allHold_lower {r : KeyRange Value} (key : Bytes) :
    Condition.allHold (r.lowerKey.toList.map fun lo => ⟨if r.lowerOpen then .gt else .gte, lo⟩) key =
      match r.lowerKey with
      | none => true
      | some lo => !(Bytes.lt key lo || (r.lowerOpen && key == lo)) := by
  cases r.lowerKey with
  | none => rfl
  | some lo =>
      simp only [Option.toList_some, List.map_cons, List.map_nil, Condition.allHold, List.all_cons,
        List.all_nil, Bool.and_true, Condition.holds, Bytes.compare]
      by_cases heq : key = lo
      · subst heq
        cases r.lowerOpen <;> simp [Bytes.isOrder.irrefl]
      · cases r.lowerOpen <;> cases Bytes.lt key lo <;> simp [heq]

theorem KeyRange.allHold_upper {r : KeyRange Value} (key : Bytes) :
    Condition.allHold (r.upperKey.toList.map fun hi => ⟨if r.upperOpen then .lt else .lte, hi⟩) key =
      match r.upperKey with
      | none => true
      | some hi => !(Bytes.lt hi key || (r.upperOpen && key == hi)) := by
  cases r.upperKey with
  | none => rfl
  | some hi =>
      simp only [Option.toList_some, List.map_cons, List.map_nil, Condition.allHold, List.all_cons,
        List.all_nil, Bool.and_true, Condition.holds, Bytes.compare]
      by_cases heq : key = hi
      · subst heq
        cases r.upperOpen <;> simp [Bytes.isOrder.irrefl]
      · cases hlt : Bytes.lt key hi with
        | true =>
            have hgt : Bytes.lt hi key = false := by
              by_contra hgt
              have := Bytes.isOrder.trans _ _ _ hlt (Bool.not_eq_false _ ▸ hgt)
              rw [Bytes.isOrder.irrefl] at this
              cases this
            cases r.upperOpen <;> simp [heq, hgt]
        | false =>
            have hgt : Bytes.lt hi key = true := by
              by_contra hgt
              exact heq (Bytes.isOrder.connected _ _ hlt (Bool.not_eq_true _ ▸ hgt))
            cases r.upperOpen <;> simp [heq, hgt]

/-- A key meets the conditions of a query when it lies in its range. -/
theorem KeyRange.allHold_conditionsOf (range : Option (KeyRange Value)) (key : Bytes) :
    Condition.allHold (conditionsOf range) key = covers range key := by
  cases range with
  | none => rfl
  | some r =>
      have happend (cs ds : List Condition) : Condition.allHold (cs ++ ds) key =
          (Condition.allHold cs key && Condition.allHold ds key) := List.all_append
      change Condition.allHold (conditions r) key = r.admits key
      rw [conditions, happend, allHold_lower, allHold_upper]
      rfl

namespace Collection

variable {c d : Collection} {flawed : String → Prop}

/-- The map that a collection holds. -/
def view (c : Collection) : RecordMap := fun key =>
  (c.text? key).bind fun text => (Value.loads text).toOption

theorem view_congr (h : d.records = c.records) : d.view = c.view := by
  funext key
  rw [view, text?, h]
  rfl

theorem view_eq_some_iff (h : c.IsConsistent flawed) {key : Bytes} {v : Value} :
    c.view key = some v ↔ ∃ text, (key, text) ∈ c.records ∧ Value.loads text = .ok v := by
  rw [view, Option.bind_eq_some_iff]
  refine exists_congr fun text => ?_
  rw [text?_eq_some_iff h]
  refine and_congr_right fun _ => ⟨eq_ok_of_toOption, fun hv => by rw [hv]; rfl⟩

theorem isSome_view_iff (h : c.IsConsistent flawed) {key : Bytes} :
    (c.view key).isSome = true ↔ ∃ text, (key, text) ∈ c.records := by
  rw [Option.isSome_iff_exists]
  constructor
  · rintro ⟨v, hv⟩
    obtain ⟨text, hmem, _⟩ := (view_eq_some_iff h).1 hv
    exact ⟨text, hmem⟩
  · rintro ⟨text, hmem⟩
    obtain ⟨v, hv⟩ := h.readable _ hmem
    exact ⟨v, (view_eq_some_iff h).2 ⟨text, hmem, hv⟩⟩

/-! ### Changes -/

theorem view_carryOut {p : Plan} {v : Value} (hv : Value.loads p.text = .ok v) :
    (c.carryOut p).view = Function.update c.view p.key (some v) := by
  funext key
  rw [view, text?, carryOut]
  by_cases hkey : key = p.key
  · subst hkey
    rw [OrderedRows.lookup_insert_self Bytes.isOrder, Function.update_self, Option.bind_some, hv]
    rfl
  · rw [OrderedRows.lookup_insert_of_ne Bytes.isOrder hkey, Function.update_of_ne hkey]
    rfl

/-- A write that succeeds has a key that can be encoded, and a record with the key. -/
theorem exists_record_of_write {name : String} {keying : Keying} {value key k : Value}
    {overwrite : Bool} (h : c.write name keying value key overwrite = (.ok k, d)) :
    ∃ encoded record v, k.encodeKey = .ok encoded ∧ value.clone = .ok record ∧
      recordWith keying.keyPath record k = .ok v := by
  rcases write_cases h with ⟨_, hf, _⟩ | ⟨_, record, v, c', p, hclone, hk, _, hresolve, hplan, _⟩
  · cases hf
  · cases hk
    refine ⟨p.key, record, v, (plan_spec hplan).1, hclone, ?_⟩
    rcases (resolveKey_cases hresolve).2 with ⟨_, hf⟩ | ⟨_, hf, _, hwith⟩ | ⟨_, _, hf, _, hwith⟩
    · cases hf
    · cases hf
      exact hwith
    · cases hf
      exact hwith

/-- A write that succeeds puts the value under the key that it yields. -/
theorem view_write {name : String} {keying : Keying} {value key k : Value} {overwrite : Bool}
    (hp : ∀ p ∈ keying.keyPath, p.IsTagFree)
    (h : c.write name keying value key overwrite = (.ok k, d)) :
    d.view = c.view.put keying.keyPath value k := by
  rcases write_cases h with ⟨_, hf, _⟩ | ⟨_, record, v, c', p, hclone, hk, hsame, hresolve, hplan, rfl⟩
  · cases hf
  · cases hk
    obtain ⟨hstored, hwith⟩ :=
      isStored_of_resolveKey hp (Value.isStored_of_clone hclone) hresolve
    obtain ⟨hencode, _, _, _, hdumps⟩ := plan_spec hplan
    rw [view_carryOut (Value.loads_of_dumps hstored hdumps), view_congr hsame.records,
      RecordMap.put, hencode, hclone]
    simp only [hwith]

theorem view_write_of_error {name : String} {keying : Keying} {value key : Value}
    {overwrite : Bool} {f : Failure} (h : c.write name keying value key overwrite = (.error f, d)) :
    d.view = c.view := by
  rcases write_cases h with ⟨_, _, hsame⟩ | ⟨_, _, _, _, _, _, hk, _⟩
  · exact view_congr hsame.records
  · cases hk

theorem view_delete (c : Collection) (range : Option (KeyRange Value)) :
    (c.delete (KeyRange.conditionsOf range)).view = c.view.erase range := by
  funext key
  rw [view, text?, delete, OrderedRows.lookup_filter
    (fun key => !Condition.allHold (KeyRange.conditionsOf range) key), RecordMap.erase,
    KeyRange.allHold_conditionsOf]
  cases KeyRange.covers range key with
  | true => rfl
  | false => rfl

theorem view_clear (c : Collection) : c.clear.view = fun _ => none := rfl

/-! ### Queries -/

theorem load_of_view {key : Bytes} {v : Value} (h : c.view key = some v) : c.load key = .ok v := by
  obtain ⟨text, htext, hv⟩ := Option.bind_eq_some_iff.1 h
  rw [load, htext]
  exact Key.formatResult_eq_ok_iff.2 (eq_ok_of_toOption hv)

/-- The rows that a query selects are those of its keys, in ascending order. -/
theorem selected_rows (c : Collection) (range : Option (KeyRange Value)) :
    Scan.selected (KeyRange.conditionsOf range) (c.rows none) =
      ((c.records.map Prod.fst).filter (KeyRange.covers range)).map fun key => (key, key) := by
  have hcovers : (fun e : Entry => Condition.allHold (KeyRange.conditionsOf range) e.1) =
      fun e : Entry => KeyRange.covers range e.1 :=
    funext fun e => KeyRange.allHold_conditionsOf range e.1
  rw [Scan.selected, hcovers, rows, List.filter_map, List.filter_map, List.map_map]
  rfl

theorem mem_keys_iff (h : c.IsConsistent flawed) {range : Option (KeyRange Value)} {key : Bytes} :
    key ∈ (c.records.map Prod.fst).filter (KeyRange.covers range) ↔ key ∈ c.view.keysIn range := by
  rw [List.mem_filter]
  refine and_congr_left fun _ => ?_
  rw [isSome_view_iff h, List.mem_map]
  constructor
  · rintro ⟨⟨k, text⟩, hmem, rfl⟩
    exact ⟨text, hmem⟩
  · rintro ⟨text, hmem⟩
    exact ⟨_, hmem, rfl⟩

theorem ascending_keys (h : c.IsConsistent flawed) (range : Option (KeyRange Value)) :
    ((c.records.map Prod.fst).filter (KeyRange.covers range)).Pairwise
      fun a b => Bytes.lt a b = true := by
  have hkeys : (c.records.map Prod.fst).Pairwise fun a b => Bytes.lt a b = true :=
    List.pairwise_map.2 h.ascending
  exact hkeys.filter _

/-- What is found in a range is what is under its least key. -/
theorem get_eq (h : c.IsConsistent flawed) (range : Option (KeyRange Value)) :
    ∃ v, c.get none (KeyRange.conditionsOf range) = .ok v ∧ c.view.IsFirst range v := by
  have hmem (key : Bytes) : key ∈ (c.records.map Prod.fst).filter (KeyRange.covers range) ↔
      key ∈ c.view.keysIn range := mem_keys_iff h
  have hascending := ascending_keys h range
  rw [get, first?, selected_rows]
  cases hkeys : (c.records.map Prod.fst).filter (KeyRange.covers range) with
  | nil =>
      refine ⟨.null, rfl, .inr ⟨?_, rfl⟩⟩
      refine Set.eq_empty_iff_forall_notMem.2 fun key hkey => ?_
      rw [← hmem, hkeys] at hkey
      cases hkey
  | cons least rest =>
      rw [hkeys] at hascending
      have hleast : least ∈ c.view.keysIn range := by
        rw [← hmem, hkeys]
        exact List.mem_cons_self
      obtain ⟨v, hv⟩ := Option.isSome_iff_exists.1 hleast.1
      refine ⟨v, load_of_view hv, .inl ⟨least, hleast, hv, fun other hother => ?_⟩⟩
      rw [← hmem, hkeys] at hother
      rcases List.mem_cons.1 hother with rfl | hother
      · exact Bytes.isOrder.irrefl _
      · by_contra hlt
        have htrans := Bytes.isOrder.trans _ _ _ (Bool.not_eq_false _ ▸ hlt)
          ((List.pairwise_cons.1 hascending).1 other hother)
        rw [Bytes.isOrder.irrefl] at htrans
        cases htrans

/-- What is counted in a range are its keys. -/
theorem count_eq (h : c.IsConsistent flawed) (range : Option (KeyRange Value)) :
    c.count none (KeyRange.conditionsOf range) = (c.view.keysIn range).ncard := by
  have hset : c.view.keysIn range =
      ((c.records.map Prod.fst).filter (KeyRange.covers range)).toFinset := by
    ext key
    rw [List.coe_toFinset]
    exact (mem_keys_iff h).symm
  have hnodup : ((c.records.map Prod.fst).filter (KeyRange.covers range)).Nodup :=
    (ascending_keys h range).imp fun hlt => OrderedRows.ne_of_lt Bytes.isOrder hlt
  rw [count, selected_rows, List.length_map, hset, Set.ncard_coe_finset,
    List.toFinset_card_of_nodup hnodup]

end Collection
end RecordStore
