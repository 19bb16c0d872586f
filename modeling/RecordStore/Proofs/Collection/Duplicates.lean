import RecordStore.Proofs.Collection.Map

/-!
When a key is refused as a duplicate. No part of a write fails in this way but the check that the
key of the record is not there yet.
-/

namespace RecordStore

section Results

variable {ε α β : Type} {e : ε}

theorem bind_ne_error {r : Except ε α} {f : α → Except ε β} (hr : r ≠ .error e)
    (hf : ∀ a, f a ≠ .error e) : (r >>= f) ≠ .error e := by
  cases r with
  | error f => exact fun h => hr (by cases h; rfl)
  | ok a => exact hf a

theorem map_ne_error {r : Except ε α} {f : α → β} (hr : r ≠ .error e) : r.map f ≠ .error e := by
  cases r with
  | error f => exact fun h => hr (by cases h; rfl)
  | ok a => exact nofun

end Results

variable {key : Value} {name : String}

theorem Key.formatResult_ne_duplicate {α : Type} (r : Except FormatFault α) :
    formatResult r ≠ .error (.store (.duplicateKey key name)) := by
  cases r with
  | error f => exact nofun
  | ok a => exact nofun

theorem Key.storeResult_ne_duplicate {α : Type} {r : Except StoreFault α}
    (h : r ≠ .error (.duplicateKey key name)) :
    storeResult r ≠ .error (.store (.duplicateKey key name)) := by
  cases r with
  | error f => exact fun hf => h (by cases hf; rfl)
  | ok a => exact nofun

/-! ### Keys -/

namespace Key

mutual

theorem check_ne_duplicate : ∀ (depth : Nat) (v : Value), check depth v ≠ .error (.duplicateKey key name)
  | depth, .list items => by
    rw [check]
    split
    · exact nofun
    · exact checkAll_ne_duplicate (depth + 1) items
  | depth, .tuple items => by
    rw [check]
    split
    · exact nofun
    · exact checkAll_ne_duplicate (depth + 1) items
  | _, .float x => by
    rw [check]
    split
    · exact nofun
    · exact nofun
  | _, .date d => by
    rw [check]
    split
    · exact nofun
    · exact nofun
  | _, .int _ | _, .text _ | _, .bytes _ | _, .null | _, .bool _ | _, .set _ | _, .dict _
  | _, .ellipsis | _, .descriptor _ | _, .keyRange _ | _, .bare _ | _, .keyed _ _
  | _, .callable _ => nofun

theorem checkAll_ne_duplicate : ∀ (depth : Nat) (items : List Value),
    checkAll depth items ≠ .error (.duplicateKey key name)
  | _, [] => nofun
  | depth, v :: rest => bind_ne_error (check_ne_duplicate depth v) fun _ => checkAll_ne_duplicate depth rest

end

theorem ofValue_ne_duplicate (v : Value) : ofValue v ≠ .error (.store (.duplicateKey key name)) := by
  rw [ofValue]
  split
  · next hcheck =>
    intro h
    cases h
    exact check_ne_duplicate 0 v hcheck
  · split
    · rintro ⟨⟩
    · rintro ⟨⟩

theorem unescape_ne_duplicate (data : Bytes) : unescape data ≠ .error (.duplicateKey key name) := by
  fun_induction unescape data with
  | case1 => exact nofun
  | case2 => exact nofun
  | case3 _ ih => exact map_ne_error ih
  | case4 => exact nofun
  | case5 _ _ _ _ _ ih => exact map_ne_error ih

mutual

theorem decodeFrom_ne_duplicate : ∀ (fuel : Nat) (data : Bytes),
    decodeFrom fuel data ≠ .error (.store (.duplicateKey key name))
  | 0, _ => nofun
  | _ + 1, [] => nofun
  | fuel + 1, tag :: data => by
    rw [decodeFrom]
    split
    · exact bind_ne_error (formatResult_ne_duplicate _) fun _ => nofun
    split
    · exact bind_ne_error (formatResult_ne_duplicate _) fun _ =>
        bind_ne_error (formatResult_ne_duplicate _) fun _ => nofun
    split
    · refine bind_ne_error (storeResult_ne_duplicate (unescape_ne_duplicate data)) fun _ => ?_
      dsimp only
      split
      · exact nofun
      · exact nofun
    split
    · exact bind_ne_error (storeResult_ne_duplicate (unescape_ne_duplicate data)) fun ⟨_, _⟩ => nofun
    split
    · exact bind_ne_error (decodeItems_ne_duplicate fuel data) fun _ => nofun
    · exact nofun

theorem decodeItems_ne_duplicate : ∀ (fuel : Nat) (data : Bytes),
    decodeItems fuel data ≠ .error (.store (.duplicateKey key name))
  | 0, _ => nofun
  | _ + 1, [] => nofun
  | fuel + 1, b :: data => by
    rw [decodeItems]
    split
    · exact nofun
    · exact bind_ne_error (decodeFrom_ne_duplicate fuel (b :: data)) fun _ =>
        bind_ne_error (decodeItems_ne_duplicate fuel _) fun _ => nofun

end

theorem decode_ne_duplicate (data : Bytes) : decode data ≠ .error (.store (.duplicateKey key name)) := by
  refine bind_ne_error (bind_ne_error (decodeFrom_ne_duplicate _ _) fun _ => nofun) fun ⟨_, pos⟩ => ?_
  by_cases hpos : pos = data.length
  · simp [hpos]
  · simp [hpos]

end Key

theorem Value.encodeKey_ne_duplicate (v : Value) : v.encodeKey ≠ .error (.store (.duplicateKey key name)) :=
  map_ne_error (Key.ofValue_ne_duplicate v)

/-! ### Records -/

namespace Document

mutual

theorem checkNames_ne_duplicate : ∀ v : Value, checkNames v ≠ .error (.duplicateKey key name)
  | .list items => checkItems_ne_duplicate items
  | .tuple items => checkItems_ne_duplicate items
  | .dict members => checkMembers_ne_duplicate members
  | .null | .bool _ | .int _ | .float _ | .text _ | .bytes _ | .date _ | .set _ | .ellipsis
  | .descriptor _ | .keyRange _ | .bare _ | .keyed _ _ | .callable _ => nofun

theorem checkItems_ne_duplicate : ∀ items : List Value, checkItems items ≠ .error (.duplicateKey key name)
  | [] => nofun
  | v :: rest => bind_ne_error (checkNames_ne_duplicate v) fun _ => checkItems_ne_duplicate rest

theorem checkMembers_ne_duplicate : ∀ members : List (Value × Value),
    checkMembers members ≠ .error (.duplicateKey key name)
  | [] => nofun
  | (.text _, v) :: rest => bind_ne_error (checkNames_ne_duplicate v) fun _ => checkMembers_ne_duplicate rest
  | (.null, _) :: _ | (.bool _, _) :: _ | (.int _, _) :: _ | (.float _, _) :: _
  | (.bytes _, _) :: _ | (.date _, _) :: _ | (.list _, _) :: _ | (.tuple _, _) :: _
  | (.set _, _) :: _ | (.dict _, _) :: _ | (.ellipsis, _) :: _ | (.descriptor _, _) :: _
  | (.keyRange _, _) :: _ | (.bare _, _) :: _ | (.keyed _ _, _) :: _
  | (.callable _, _) :: _ => nofun

end

theorem sequence_ne_duplicate {α : Type} {rs : List (Except StoreFault α)}
    (h : ∀ r ∈ rs, r ≠ .error (.duplicateKey key name)) :
    sequence rs ≠ .error (.duplicateKey key name) := by
  induction rs with
  | nil => exact nofun
  | cons r rest ih =>
      exact bind_ne_error (h r List.mem_cons_self) fun _ =>
        bind_ne_error (ih fun r hr => h r (List.mem_cons_of_mem _ hr)) fun _ => nofun

mutual

theorem encode_ne_duplicate : ∀ v : Value, encode v ≠ .error (.duplicateKey key name)
  | .int n => by
    rw [encode]
    split
    · exact nofun
    · exact nofun
  | .list items => map_ne_error (encodeItems_ne_duplicate items)
  | .tuple items => map_ne_error (encodeItems_ne_duplicate items)
  | .set items => by
    rw [encode]
    refine map_ne_error (sequence_ne_duplicate fun r hr => ?_)
    obtain ⟨s, hs⟩ := sortByLiteral_mem hr
    exact encodeElements_ne_duplicate items _ hs
  | .dict members => map_ne_error (encodeMembers_ne_duplicate members)
  | .null | .bool _ | .float _ | .text _ | .bytes _ | .date _ | .ellipsis | .descriptor _
  | .keyRange _ | .bare _ | .keyed _ _ | .callable _ => nofun

theorem encodeItems_ne_duplicate : ∀ items : List Value, encodeItems items ≠ .error (.duplicateKey key name)
  | [] => nofun
  | v :: rest => bind_ne_error (encode_ne_duplicate v) fun _ => bind_ne_error (encodeItems_ne_duplicate rest) fun _ => nofun

theorem encodeElements_ne_duplicate : ∀ items : List Value, ∀ p ∈ encodeElements items,
    p.2 ≠ .error (.duplicateKey key name)
  | [] => nofun
  | v :: rest => by
    rw [encodeElements]
    intro p hp
    rcases List.mem_cons.1 hp with rfl | hp
    · exact encode_ne_duplicate v
    · exact encodeElements_ne_duplicate rest p hp

theorem encodeMembers_ne_duplicate : ∀ members : List (Value × Value),
    encodeMembers members ≠ .error (.duplicateKey key name)
  | [] => nofun
  | (.text _, v) :: rest =>
    bind_ne_error (encode_ne_duplicate v) fun _ => bind_ne_error (encodeMembers_ne_duplicate rest) fun _ => nofun
  | (.null, _) :: _ | (.bool _, _) :: _ | (.int _, _) :: _ | (.float _, _) :: _
  | (.bytes _, _) :: _ | (.date _, _) :: _ | (.list _, _) :: _ | (.tuple _, _) :: _
  | (.set _, _) :: _ | (.dict _, _) :: _ | (.ellipsis, _) :: _ | (.descriptor _, _) :: _
  | (.keyRange _, _) :: _ | (.bare _, _) :: _ | (.keyed _ _, _) :: _
  | (.callable _, _) :: _ => nofun

end

end Document

theorem Value.dumps_ne_duplicate (v : Value) : v.dumps ≠ .error (.duplicateKey key name) :=
  map_ne_error (bind_ne_error (Document.checkNames_ne_duplicate v) fun _ => Document.encode_ne_duplicate v)

theorem Value.clone_ne_duplicate (v : Value) : v.clone ≠ .error (.store (.duplicateKey key name)) := by
  unfold clone
  split
  · next h =>
    intro hf
    cases hf
    exact dumps_ne_duplicate v h
  · split
    · exact nofun
    · exact nofun

/-! ### Entries -/

theorem IndexSpec.itemKeys_ne_duplicate (items : List Value) :
    itemKeys items ≠ .error (.store (.duplicateKey key name)) := by
  induction items with
  | nil => exact nofun
  | cons v rest ih =>
      rw [itemKeys]
      split
      · exact bind_ne_error (Value.encodeKey_ne_duplicate v) fun _ => bind_ne_error ih fun _ => nofun
      · exact ih

theorem IndexSpec.keysFor_ne_duplicate (spec : IndexSpec) (record : Value) :
    spec.keysFor record ≠ .error (.store (.duplicateKey key name)) := by
  unfold keysFor
  split
  · exact nofun
  split
  · exact nofun
  · exact itemKeys_ne_duplicate _
  · exact itemKeys_ne_duplicate _
  · split
    · exact map_ne_error (Value.encodeKey_ne_duplicate _)
    · exact nofun

theorem Index.checkUnique_ne_duplicate (i : Index) (k record : Bytes) :
    i.checkUnique k record ≠ .error (.store (.duplicateKey key name)) := by
  unfold checkUnique
  split
  · exact bind_ne_error (Key.decode_ne_duplicate k) fun _ => nofun
  · exact nofun

theorem Index.checkAllUnique_ne_duplicate (i : Index) (record : Bytes) (keys : List Bytes) :
    i.checkAllUnique record keys ≠ .error (.store (.duplicateKey key name)) := by
  induction keys with
  | nil => exact nofun
  | cons k rest ih => exact bind_ne_error (i.checkUnique_ne_duplicate k record) fun _ => ih

namespace Collection

variable {c d : Collection} {flawed : String → Prop}

theorem planEntries_ne_duplicate (k : Bytes) (record : Value) (indexes : List Index) :
    planEntries k record indexes ≠ .error (.store (.duplicateKey key name)) := by
  induction indexes with
  | nil => exact nofun
  | cons i rest ih =>
      exact bind_ne_error (i.spec.keysFor_ne_duplicate record) fun keys =>
        bind_ne_error (i.checkAllUnique_ne_duplicate k keys) fun _ => bind_ne_error ih fun _ => nofun

theorem generate_ne_duplicate (c : Collection) : c.generate.1 ≠ .error (.store (.duplicateKey key name)) := by
  unfold generate
  split
  · exact nofun
  · split
    · exact nofun
    · exact nofun

theorem useKey_ne_duplicate (c : Collection) (keying : Keying) (k record : Value) :
    (c.useKey keying k record).1 ≠ .error (.store (.duplicateKey key name)) := by
  unfold useKey
  split
  · exact nofun
  · exact nofun

theorem useGenerated_ne_duplicate (c : Collection) (path : Option KeyPath) (record : Value) :
    (c.useGenerated path record).1 ≠ .error (.store (.duplicateKey key name)) := by
  unfold useGenerated
  split
  · next h =>
    intro hf
    cases hf
    exact c.generate_ne_duplicate (congrArg Prod.fst h)
  · split
    · split
      · next h =>
        unfold KeyPath.inject at h
        split at h
        · cases h
        · cases h
          exact nofun
      · exact nofun
    · exact nofun

theorem resolveKey_ne_duplicate (c : Collection) (collection : String) (keying : Keying) (record k : Value) :
    (c.resolveKey collection keying record k).1 ≠ .error (.store (.duplicateKey key name)) := by
  unfold resolveKey
  split
  · split
    · exact nofun
    split
    · split
      · exact c.useGenerated_ne_duplicate _ _
      · exact nofun
    · split
      · exact c.useKey_ne_duplicate _ _ _
      · exact nofun
  · split
    · split
      · exact c.useGenerated_ne_duplicate _ _
      · exact nofun
    · split
      · exact c.useKey_ne_duplicate _ _ _
      · exact nofun

/-- A plan is refused as a duplicate when it may not replace a record and there is one. -/
theorem plan_duplicate_iff {collection : String} {k record : Value} {overwrite : Bool} :
    c.plan collection k record overwrite = .error (.store (.duplicateKey key name)) ↔
      overwrite = false ∧ key = k ∧ name = collection ∧ ∃ encoded, key.encodeKey = .ok encoded ∧
        (c.text? encoded).isSome = true := by
  simp only [plan]
  cases hencode : k.encodeKey with
  | error f =>
      constructor
      · intro h
        cases h
        exact absurd hencode (Value.encodeKey_ne_duplicate k)
      · rintro ⟨_, rfl, _, _, hencoded, _⟩
        cases hencode.symm.trans hencoded
  | ok encoded =>
      change (if ((c.text? encoded).isSome && !overwrite) = true then _ else _) = _ ↔ _
      split
      · next hrefused =>
        obtain ⟨htext, hkept⟩ := Bool.and_eq_true_iff.1 hrefused
        constructor
        · intro h
          cases h
          exact ⟨Bool.not_eq_true' _ ▸ hkept, rfl, rfl, encoded, hencode, htext⟩
        · rintro ⟨_, rfl, rfl, _⟩
          rfl
      · next hallowed =>
        constructor
        · intro h
          exact absurd h (bind_ne_error (planEntries_ne_duplicate encoded record _) fun _ =>
            bind_ne_error (Key.storeResult_ne_duplicate (Value.dumps_ne_duplicate record)) (by rintro _ ⟨⟩))
        · rintro ⟨rfl, rfl, _, _, hencoded, hsome⟩
          cases hencode.symm.trans hencoded
          exact absurd (Bool.and_eq_true_iff.2 ⟨hsome, rfl⟩) hallowed

/-- The key that a value would be written under. -/
def keyFor? (c : Collection) (collection : String) (keying : Keying) (value given : Value) :
    Option Value :=
  match value.clone with
  | .error _ => none
  | .ok record =>
    match (c.resolveKey collection keying record given).1 with
    | .error _ => none
    | .ok (k, _) => some k

theorem isSome_text_iff (h : c.IsConsistent flawed) {k : Bytes} :
    (c.text? k).isSome = true ↔ (c.view k).isSome = true := by
  rw [isSome_view_iff h, Option.isSome_iff_exists]
  exact exists_congr fun text => text?_eq_some_iff h

/-- Adding a value is refused as a duplicate exactly when its key is in the map. -/
theorem add_duplicate_iff (h : c.IsConsistent flawed) {collection : String} {keying : Keying}
    {value given : Value} :
    (c.write collection keying value given false).1 = .error (.store (.duplicateKey key name)) ↔
      name = collection ∧ c.keyFor? collection keying value given = some key ∧
        ∃ encoded, key.encodeKey = .ok encoded ∧ (c.view encoded).isSome = true := by
  unfold write keyFor?
  cases hclone : value.clone with
  | error f =>
      constructor
      · intro hf
        cases hf
        exact absurd hclone (Value.clone_ne_duplicate value)
      · rintro ⟨_, hnone, _⟩
        cases hnone
  | ok record =>
      dsimp only
      cases hresolve : c.resolveKey collection keying record given with
      | mk r c' =>
          have hrecords := (resolveKey_cases hresolve).1.records
          cases r with
          | error f =>
              constructor
              · intro hf
                cases hf
                exact absurd (congrArg Prod.fst hresolve) (c.resolveKey_ne_duplicate _ _ _ _)
              · rintro ⟨_, hnone, _⟩
                cases hnone
          | ok kv =>
              obtain ⟨k, v⟩ := kv
              have htext (encoded : Bytes) : c'.text? encoded = c.text? encoded := by
                rw [text?, hrecords, text?]
              have hplan : c'.plan collection k v false = .error (.store (.duplicateKey key name)) ↔
                  key = k ∧ name = collection ∧
                    ∃ encoded, key.encodeKey = .ok encoded ∧ (c.view encoded).isSome = true := by
                simp only [plan_duplicate_iff, htext, isSome_text_iff h, true_and]
              dsimp only
              cases hp : c'.plan collection k v false with
              | error f =>
                  rw [hp, Except.error.injEq] at hplan
                  dsimp only
                  rw [Except.error.injEq]
                  refine hplan.trans ⟨?_, ?_⟩
                  · rintro ⟨rfl, hname, hkey⟩
                    exact ⟨hname, rfl, hkey⟩
                  · rintro ⟨hname, ⟨⟩, hkey⟩
                    exact ⟨rfl, hname, hkey⟩
              | ok p =>
                  rw [hp] at hplan
                  constructor
                  · rintro ⟨⟩
                  · rintro ⟨hname, ⟨⟩, hkey⟩
                    cases hplan.2 ⟨rfl, hname, hkey⟩

end Collection
end RecordStore
