import RecordStore.Proofs.Collection.InlineKeys
import RecordStore.Proofs.Cursor.Rewriting
import RecordStore.Proofs.Document.Members
import RecordStore.Session.Operations

/-!
Records that are handed back with their keys. Where keys are in a field of the records, a record that was
added is given its key in just that field, and then it comes back from storage as what was stored. So it
is under its key when it is written once more, and that leaves all records as they are.
-/

namespace RecordStore

open Document (IsTag)

/-- A record has its key of its own, both where the key path of the name of a field leads and in the field of
that name, once it comes back from storage. -/
structure Record.CarriesKey (field : String) (key : Value) (members : List (Value × Value)) : Prop where
  found : (KeyPath.single field).find? (.dict members) = some key
  inField : ∃ kept, (Value.dict members).clone = .ok (.dict kept) ∧ Value.member? field kept = some key

/-- A mapping that is given its key in a field is the record with the key: it does not take the form of a
tagged object for it, and if the name of the field has dots, so that the key path leads elsewhere, then the
mapping had the key in both places before. -/
structure Record.TakesKey (field : String) (key : Value) (members : List (Value × Value)) : Prop where
  untagged : IsTag field → members ≠ []
  dotted : '.' ∈ field.toList → Record.CarriesKey field key members

namespace Collection

variable {c c' d : Collection} {name field : String} {keying : Keying} {path : KeyPath}
  {members kept : List (Value × Value)} {record key k v : Value}

/-! ### The record with its key -/

section Written

variable (hpath : keying.keyPath = some (.single field))
  (hresolve : c.resolveKey name keying record .null = (.ok (k, v), c'))

include hpath hresolve

theorem find?_written : (KeyPath.single field).find? v = some k :=
  find?_of_resolveKey hpath (fun _ _ hps => nomatch hpath.symm.trans hps) hresolve

/-- The key was in the record, or it was generated and put there. -/
theorem written_cases : ((KeyPath.single field).find? record = some k ∧ v = record) ∨
    (KeyPath.single field).find? record = none ∧
      ∃ n : Nat, n ≤ maxGenerated ∧ k = .int n ∧ KeyPath.inject field k record = .ok v := by
  have hfind := find?_written hpath hresolve
  rcases (resolveKey_cases hresolve).2 with ⟨_, hf⟩ | ⟨_, hr, _⟩ | ⟨n, _, hr, hle, hwith⟩
  · cases hf
  · cases hr
    exact .inl ⟨hfind, rfl⟩
  · cases hr
    rw [hpath, recordWith] at hwith
    cases hrecord : (KeyPath.single field).find? record with
    | none =>
        rw [hrecord] at hwith
        exact .inr ⟨rfl, n, hle, rfl, hwith⟩
    | some found =>
        rw [hrecord] at hwith
        cases hwith
        exact .inl ⟨hrecord.symm.trans hfind, rfl⟩

/-- No key is generated for a record in which a key path leads anywhere before the record is stored. -/
theorem written_eq_of_found {value found : Value} (hproper : value.IsProper) (hclone : value.clone = .ok record)
    (hfound : (KeyPath.single field).find? value = some found) : v = record := by
  rcases written_cases hpath hresolve with ⟨_, hv⟩ | ⟨hnone, _, _, _, hinject⟩
  · exact hv
  · rcases KeyPath.find?_of_returns (Value.returns_of_clone hproper hclone) hfound with
      ⟨_, hsome, _⟩ | ⟨_, hplace⟩
    · cases hnone.symm.trans hsome
    · rw [KeyPath.inject, hplace field rfl] at hinject
      cases hinject

/-- Only a mapping gets a key where the key path has fields. -/
theorem exists_dict_of_written (hne : field ≠ "") : ∃ kept, record = .dict kept := by
  rcases written_cases hpath hresolve with ⟨hfind, _⟩ | ⟨_, _, _, _, hinject⟩
  · exact KeyPath.exists_dict_of_findSingle hne hfind
  · exact KeyPath.exists_dict_of_inject hinject

theorem isStored_key (hne : field ≠ "") (hrecord : record.IsStored) : k.IsStored := by
  rcases written_cases hpath hresolve with ⟨hfind, _⟩ | ⟨_, n, hle, rfl, _⟩
  · rw [KeyPath.find?, KeyPath.findSingle, if_neg hne] at hfind
    exact KeyPath.isStored_of_follow hrecord hfind
  · exact isStored_generated hle

end Written

/-- A key path without dots finds the key where it was written back. -/
theorem find?_withKey (hne : field ≠ "") (hdots : '.' ∉ field.toList) (key : Value) :
    (KeyPath.single field).find? (Record.withKey field key (.dict members)) = some key :=
  (KeyPath.findSingle_of_not_mem hne hdots _).trans Value.member?_insertMember_self

/-- A key path with dots finds what it would have found before. -/
theorem find?_withKey_of_mem (hdots : '.' ∈ field.toList) (key : Value) :
    (KeyPath.single field).find? (Record.withKey field key (.dict members)) =
      (KeyPath.single field).find? (.dict members) := by
  refine KeyPath.findSingle_congr_of_mem hdots fun other hne => ?_
  have hequals : (Value.text other).equals (.text field) = false := beq_eq_false_iff_ne.2 hne
  exact Value.member?_insertMember_of_ne hequals key members

/-- What comes back of a record with its key is what comes back of the record, with the key. -/
theorem clone_withKey (hproper : (Value.dict members).IsProper) (huntagged : IsTag field → members ≠ [])
    (hkey : key.IsStored) (hclone : (Value.dict members).clone = .ok (.dict kept)) :
    (Record.withKey field key (.dict members)).clone = .ok (.dict (Value.setMember field key kept)) :=
  Value.clone_insertMember hproper hkey huntagged hclone

/-! ### The key once more -/

theorem raiseGenerator_fst (c d : Collection) (keying : Keying) (key : Value) :
    (c.raiseGenerator keying key).1 = (d.raiseGenerator keying key).1 := by
  unfold raiseGenerator
  split
  · rfl
  · cases generatorFloor key with
    | error f => rfl
    | ok floor =>
        cases floor with
        | none => rfl
        | some n =>
            dsimp only
            split
            · rfl
            · rfl

/-- What is generated is a key, and no generator refuses to be moved up to it. -/
theorem raiseGenerator_generated (c : Collection) (keying : Keying) (n : Nat) :
    (c.raiseGenerator keying (.int n)).1 = .ok () := by
  have hfloor : ¬min (n : Int) maxGenerated < -(2 ^ 63) := by omega
  unfold raiseGenerator
  split
  · rfl
  · simp only [generatorFloor, if_neg hfloor]

/-- A key that was found for a record can be used for it again. -/
theorem usable_of_resolveKey (hpath : keying.keyPath = some path)
    (h : c.resolveKey name keying record .null = (.ok (k, v), c')) (d : Collection) :
    k.isValidKey = true ∧ (d.raiseGenerator keying k).1 = .ok () := by
  unfold resolveKey at h
  rw [hpath] at h
  dsimp only at h
  split at h
  · cases h
  cases hfind : path.find? record with
  | none =>
      rw [hfind] at h
      dsimp only at h
      split at h
      · rcases (useGenerated_cases (some path) (by rintro _ ⟨⟩; exact hfind) h).2 with
          ⟨_, hf⟩ | ⟨n, w, hn, _, _⟩
        · cases hf
        · cases hn
          exact ⟨rfl, raiseGenerator_generated d keying n⟩
      · cases h
  | some found =>
      rw [hfind] at h
      dsimp only at h
      split at h
      · next hvalid =>
        unfold useKey at h
        split at h
        · cases h
        · next hraise =>
          cases h
          refine ⟨hvalid, ?_⟩
          rw [raiseGenerator_fst d c, hraise]
      · cases h

/-- A record that was written with its key has the same key when it is written again. -/
theorem exists_resolveKey_again (hpath : keying.keyPath = some path)
    (hgenerates : keying.GeneratesSingly)
    (h : c.resolveKey name keying record .null = (.ok (k, v), c')) (d : Collection) :
    ∃ d', d.resolveKey name keying v .null = (.ok (k, v), d') := by
  obtain ⟨hvalid, hraise⟩ := usable_of_resolveKey hpath h d
  have hfind := find?_of_resolveKey hpath hgenerates h
  rcases hd : d.raiseGenerator keying k with ⟨result, d'⟩
  rw [hd] at hraise
  obtain rfl : result = .ok () := hraise
  refine ⟨d', ?_⟩
  unfold resolveKey
  rw [hpath]
  simp only [Value.isNull, Bool.not_true, Bool.false_eq_true, if_false, hfind, hvalid, if_true, useKey, hd]

/-! ### The plan once more -/

theorem checkAllUnique_of_checkUnique {i : Index} {record : Bytes} {keys : List Bytes}
    (h : ∀ key ∈ keys, i.checkUnique key record = .ok ()) : i.checkAllUnique record keys = .ok () := by
  induction keys with
  | nil => rfl
  | cons key rest ih =>
      obtain ⟨hkey, hrest⟩ := List.forall_mem_cons.1 h
      rw [Index.checkAllUnique, hkey, ok_bind, ih hrest]

theorem exists_planEntries {b : Bytes} {indexes : List Index}
    (h : ∀ i ∈ indexes, ∃ keys, i.spec.keysFor v = .ok keys ∧ ∀ k ∈ keys, i.checkUnique k b = .ok ()) :
    ∃ entries, planEntries b v indexes = .ok entries := by
  induction indexes with
  | nil => exact ⟨[], rfl⟩
  | cons i rest ih =>
      obtain ⟨⟨keys, hkeys, hunique⟩, hrest⟩ := List.forall_mem_cons.1 h
      obtain ⟨others, hothers⟩ := ih hrest
      refine ⟨(keys.map fun k => (i.name, k)) ++ others, ?_⟩
      rw [planEntries, hkeys, ok_bind, checkAllUnique_of_checkUnique hunique, ok_bind, hothers]
      rfl

/-- A planned write adds no entries to an index but such as lead to its record. -/
theorem mem_updateIndex {p : Plan} {i : Index} {e : Entry} (h : e ∈ (p.updateIndex i).entries) :
    e ∈ i.entries ∨ e.2 = p.key := by
  rcases mem_updateIndex_iff.1 h with h | ⟨h, _⟩
  · split at h
    · exact .inl (List.mem_of_mem_filter h)
    · exact .inl h
  · exact .inr h

theorem checkUnique_updateIndex {p : Plan} {i : Index} {b : Bytes} (h : i.checkUnique b p.key = .ok ()) :
    (p.updateIndex i).checkUnique b p.key = .ok () := by
  unfold Index.checkUnique
  rw [(name_spec_updateIndex p i).2, if_neg]
  rw [Bool.and_eq_true, List.any_eq_true]
  rintro ⟨hunique, e, he, htest⟩
  rw [Bool.and_eq_true, beq_iff_eq, bne_iff_ne] at htest
  rcases mem_updateIndex he with he | he
  · exact htest.2 (not_any_of_checkUnique h hunique he htest.1)
  · exact htest.2 he

/-- What was planned and carried out can be planned again, and is the same for the records. -/
theorem exists_plan_again {p : Plan} {overwrite : Bool} (h : c.plan name k v overwrite = .ok p)
    (hd : d.indexes = (c.carryOut p).indexes) :
    ∃ q, d.plan name k v true = .ok q ∧ q.key = p.key ∧ q.text = p.text := by
  obtain ⟨hencode, _, _, hentries, hdumps⟩ := plan_spec h
  obtain ⟨entries, hagain⟩ : ∃ entries, planEntries p.key v d.indexes = .ok entries := by
    refine exists_planEntries fun j hj => ?_
    rw [hd] at hj
    obtain ⟨i, hi, rfl⟩ := List.mem_map.1 hj
    obtain ⟨keys, hkeys, hunique, _⟩ := exists_keys_of_planEntries hentries i hi
    rw [(name_spec_updateIndex p i).2]
    exact ⟨keys, hkeys, fun k hk => checkUnique_updateIndex (hunique k hk)⟩
  refine ⟨⟨p.key, p.text, (d.text? p.key).isSome, entries⟩, ?_, rfl, rfl⟩
  rw [plan, hencode, ok_bind]
  dsimp only
  rw [Bool.not_true, Bool.and_false, if_neg Bool.false_ne_true, hagain, ok_bind, hdumps]
  rfl

/-! ### Records that are handed back -/

/-- A record was put into a collection that had none under its key. -/
structure IsAdded (c d : Collection) (key : Value) (encoded : Bytes) : Prop where
  encodes : key.encodeKey = .ok encoded
  isNew : c.text? encoded = none
  inserted : ∃ text, d.records = OrderedRows.insert Bytes.lt encoded text c.records

/-- What a caller holds of a record under a key: the key path finds the key in it, and it comes back from
storage as what is stored there. -/
structure IsHandedBack (d : Collection) (path : KeyPath) (returned key : Value) (encoded : Bytes)
    (record : Value) : Prop where
  found : path.find? returned = some key
  stored : d.view encoded = some record
  comesBack : returned.clone = .ok record

theorem exists_isAdded (hwrite : c.write name keying v .null false = (.ok key, d)) :
    ∃ encoded, c.IsAdded d key encoded := by
  rcases write_cases hwrite with ⟨_, hf, _⟩ | ⟨k, record, w, c', p, _, hk, hsame, _, hplan, rfl⟩
  · cases hf
  cases hk
  obtain ⟨hencode, hreplaces, hallowed, _⟩ := plan_spec hplan
  refine ⟨p.key, hencode, ?_, p.text, ?_⟩
  · rw [Bool.not_false, Bool.and_true, hreplaces] at hallowed
    rw [text?, ← hsame.records]
    exact Option.not_isSome_iff_eq_none.1 (Bool.eq_false_iff.1 hallowed)
  · rw [carryOut, hsame.records]

/-- What is read under a key that was planned is what comes back of what was written. -/
theorem clone_of_view_carryOut {p : Plan} (hdumps : v.dumps = .ok p.text)
    (h : (c.carryOut p).view p.key = some record) : v.clone = .ok record := by
  obtain ⟨text, htext, hloads⟩ := Option.bind_eq_some_iff.1 h
  rw [text?, carryOut, OrderedRows.lookup_insert_self Bytes.isOrder] at htext
  cases htext
  rw [Value.clone, hdumps]
  dsimp only
  rw [eq_ok_of_toOption hloads]

/-- A key that is generated for a mapping without members and put under the name of a tag does not come back. -/
theorem not_clone_tagged (hpath : keying.keyPath = some (.single field))
    (hresolve : c.resolveKey name keying (.dict kept) .null = (.ok (k, v), c'))
    (hclone : (Value.dict []).clone = .ok (.dict kept)) (htag : IsTag field) : v.clone ≠ .ok record := by
  intro hback
  cases (Value.clone_dict_iff.2 ⟨[], .nil, rfl⟩).symm.trans hclone
  have hdots : '.' ∉ field.toList := by
    rcases htag with rfl | rfl | rfl
    · decide
    · decide
    · decide
  have hne : field ≠ "" := by
    rcases htag with rfl | rfl | rfl
    · decide
    · decide
    · decide
  rcases written_cases hpath hresolve with ⟨hfind, _⟩ | ⟨_, n, hle, rfl, hinject⟩
  · cases (KeyPath.findSingle_of_not_mem hne hdots _).symm.trans hfind
  rw [KeyPath.inject, KeyPath.segments_of_not_mem hdots] at hinject
  cases hinject
  obtain ⟨fields, hs, hclose⟩ := Value.clone_dict_iff.1 hback
  obtain ⟨⟨s, w⟩, rest, ⟨hname, hreads⟩, hrest, rfl⟩ := List.forall₂_cons_left_iff.1 hs
  cases hrest
  cases hname
  have hint : (Value.int n).clone = .ok (.int n) := Value.clone_of_isStored (isStored_generated hle)
  cases hint.symm.trans (Value.clone_of_readsAs hreads)
  rcases htag with rfl | rfl | rfl
  · cases hclose
  · cases hclose
  · cases hclose

section Taking

variable (hne : field ≠ "") (hproper : (Value.dict members).IsProper)
  (hpath : keying.keyPath = some (.single field))

include hne hproper hpath

/-- A record that takes its key comes back as the record that was written. -/
theorem clone_withKey_eq_written (htakes : Record.TakesKey field k members)
    (hclone : (Value.dict members).clone = .ok record)
    (hresolve : c.resolveKey name keying record .null = (.ok (k, v), c')) :
    (Record.withKey field k (.dict members)).clone = .ok v := by
  obtain ⟨kept, rfl⟩ := exists_dict_of_written hpath hresolve hne
  have hkey := isStored_key hpath hresolve hne (Value.isStored_of_clone hclone)
  rw [clone_withKey hproper htakes.untagged hkey hclone]
  by_cases hdots : '.' ∈ field.toList
  · obtain ⟨hfound, kept', hclone', hmember⟩ := htakes.dotted hdots
    cases hclone.symm.trans hclone'
    rw [Value.setMember_of_member?_eq hmember, written_eq_of_found hpath hresolve hproper hclone hfound]
  · rcases written_cases hpath hresolve with ⟨hfind, rfl⟩ | ⟨_, _, _, _, hinject⟩
    · rw [KeyPath.find?, KeyPath.findSingle_of_not_mem hne hdots] at hfind
      rw [Value.setMember_of_member?_eq hfind]
    · rw [KeyPath.inject, KeyPath.segments_of_not_mem hdots] at hinject
      cases hinject
      rfl

/-- A record that takes its key is handed back as it is stored, and to write it once more changes no records. -/
theorem exists_isHandedBack (htakes : Record.TakesKey field key members)
    (hwrite : c.write name keying (.dict members) .null false = (.ok key, d)) {encoded : Bytes}
    (hencodes : key.encodeKey = .ok encoded) : ∃ record,
    d.IsHandedBack (.single field) (Record.withKey field key (.dict members)) key encoded record ∧
      ∃ d', d.write name keying (Record.withKey field key (.dict members)) .null true = (.ok key, d') ∧
        d'.records = d.records := by
  have hgenerates : keying.GeneratesSingly := fun _ _ hps => nomatch hpath.symm.trans hps
  rcases write_cases hwrite with ⟨_, hf, _⟩ | ⟨k, record, v, c', p, hclone, hk, hsame, hresolve, hplan, rfl⟩
  · cases hf
  cases hk
  have hback := clone_withKey_eq_written hne hproper hpath htakes hclone hresolve
  obtain ⟨hencode, _, _, _, hdumps⟩ := plan_spec hplan
  cases hencodes.symm.trans hencode
  have hloads := Value.loads_of_dumps (Value.isStored_of_clone hback) hdumps
  refine ⟨v, ⟨?_, ?_, hback⟩, ?_⟩
  · by_cases hdots : '.' ∈ field.toList
    · exact (find?_withKey_of_mem hdots key).trans (htakes.dotted hdots).found
    · exact find?_withKey hne hdots key
  · rw [view_carryOut hloads, Function.update_self]
  · obtain ⟨d', hagain⟩ := exists_resolveKey_again hpath hgenerates hresolve (c'.carryOut p)
    have hdata := (resolveKey_cases hagain).1
    obtain ⟨q, hq, hqkey, hqtext⟩ := exists_plan_again hplan hdata.indexes
    refine ⟨d'.carryOut q, ?_, ?_⟩
    · unfold write
      rw [hback]
      dsimp only
      rw [hagain]
      dsimp only
      rw [hq]
    · -- the same row is put in once more
      change OrderedRows.insert Bytes.lt q.key q.text d'.records = _
      rw [hqkey, hqtext, hdata.records]
      exact OrderedRows.insert_insert Bytes.isOrder p.key p.text p.text c'.records

/-- What is handed back as it is stored has taken its key. -/
theorem takesKey_of_isHandedBack (hwrite : c.write name keying (.dict members) .null false = (.ok key, d))
    {encoded : Bytes} (hencodes : key.encodeKey = .ok encoded)
    (h : d.IsHandedBack (.single field) (Record.withKey field key (.dict members)) key encoded record) :
    Record.TakesKey field key members := by
  rcases write_cases hwrite with ⟨_, hf, _⟩ | ⟨k, kept, v, c', p, hclone, hk, hsame, hresolve, hplan, rfl⟩
  · cases hf
  cases hk
  obtain ⟨kept, rfl⟩ := exists_dict_of_written hpath hresolve hne
  have hkey := isStored_key hpath hresolve hne (Value.isStored_of_clone hclone)
  obtain ⟨hencode, _, _, _, hdumps⟩ := plan_spec hplan
  cases hencodes.symm.trans hencode
  have hcomes : v.clone = .ok record := clone_of_view_carryOut hdumps h.stored
  have huntagged : IsTag field → members ≠ [] := by
    rintro htag rfl
    exact not_clone_tagged hpath hresolve hclone htag hcomes
  refine ⟨huntagged, fun hdots => ?_⟩
  have hfound := (find?_withKey_of_mem hdots key).symm.trans h.found
  obtain rfl := written_eq_of_found hpath hresolve hproper hclone hfound
  -- the record is stored as it came back, so that to set the key in it changed nothing
  have hsame := (Value.clone_of_isStored (Value.isStored_of_clone hclone)).symm.trans hcomes
  have hback := (clone_withKey hproper huntagged hkey hclone).symm.trans h.comesBack
  cases hsame
  refine ⟨hfound, kept, hclone, ?_⟩
  rw [← Value.dict.inj (Except.ok.inj hback), Value.member?_setMember, if_pos rfl]

end Taking

/-- What is stored under a key is found by it. -/
theorem get_of_view {encoded : Bytes} (hv : d.view encoded = some v) :
    d.get none (KeyRange.conditionsOf (some ⟨key, key, false, false, some encoded, some encoded⟩)) =
      .ok v := by
  obtain ⟨text, htext, _⟩ := Option.bind_eq_some_iff.1 hv
  have hmem : encoded ∈ (d.records.map Prod.fst).filter
      (KeyRange.covers (some ⟨key, key, false, false, some encoded, some encoded⟩)) :=
    List.mem_filter.2 ⟨mem_keys_of_text? htext, KeyRange.covers_single.2 rfl⟩
  rw [get, first?, selected_rows]
  cases hkeys : (d.records.map Prod.fst).filter
      (KeyRange.covers (some ⟨key, key, false, false, some encoded, some encoded⟩)) with
  | nil =>
      rw [hkeys] at hmem
      cases hmem
  | cons first rest =>
      have hfirst : first ∈ first :: rest := List.mem_cons_self
      rw [← hkeys] at hfirst
      obtain rfl : first = encoded := KeyRange.covers_single.1 (List.mem_filter.1 hfirst).2
      exact load_of_view hv

end Collection
end RecordStore
