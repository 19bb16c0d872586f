import RecordStore.Proofs.Collection.Consistency
import RecordStore.Proofs.Document.RoundTrip
import RecordStore.Proofs.KeyPath

/-!
Writing a record keeps a collection consistent. A write either fails and leaves records and indexes
alone, or carries out a plan; a plan gives each index just the keys that the record calls for, and
has checked them against the entries that a unique index has for other records.
-/

namespace RecordStore
namespace Collection

variable {c d : Collection} {flawed : String → Prop}

/-! ### Finding the key -/

/-- Two collections differ in nothing but the last key that was generated, which has not shrunk. -/
structure SameData (c d : Collection) : Prop where
  records : d.records = c.records
  indexes : d.indexes = c.indexes
  keying : d.header.map Header.keying = c.header.map Header.keying
  lastKey : ∀ h ∈ c.header, ∀ h' ∈ d.header, h.lastKey ≤ h'.lastKey

theorem SameData.refl (c : Collection) : SameData c c :=
  ⟨rfl, rfl, rfl, fun _ hc _ hd => le_of_eq (congrArg Header.lastKey (Option.mem_unique hc hd))⟩

theorem sameData_generate {r : Except Failure Nat} (h : c.generate = (r, d)) : SameData c d := by
  unfold generate at h
  split at h
  · cases h
    exact .refl c
  · next hh =>
    split at h
    · cases h
      exact .refl c
    · cases h
      refine ⟨rfl, rfl, by rw [hh]; rfl, ?_⟩
      rw [hh]
      rintro _ ⟨⟩ _ ⟨⟩
      exact Nat.le_succ _

/-- What is generated is at most the greatest key. -/
theorem le_of_generate {n : Nat} (h : c.generate = (.ok n, d)) : n ≤ maxGenerated := by
  unfold generate at h
  split at h
  · cases h
  · split at h
    · cases h
    · next hle =>
      cases h
      exact Nat.not_lt.1 hle

theorem sameData_raiseGenerator {keying : Keying} {key : Value} {r : Except FormatFault Unit}
    (h : c.raiseGenerator keying key = (r, d)) : SameData c d := by
  unfold raiseGenerator at h
  split at h
  · cases h
    exact .refl c
  split at h
  · cases h
    exact .refl c
  · cases h
    exact .refl c
  split at h
  · cases h
    exact .refl c
  · cases h
    refine ⟨rfl, rfl, ?_, ?_⟩
    · rw [Option.map_map]
      rfl
    · intro header hc raised hd
      obtain ⟨_, hc', rfl⟩ := Option.map_eq_some_iff.1 hd
      rw [Option.mem_unique hc' hc]
      exact Nat.le_max_left _ _

theorem isStored_generated {n : Nat} (h : n ≤ maxGenerated) : (Value.int n).IsStored := by
  have hlt : n < 10 ^ 16 := lt_of_le_of_lt h (by decide)
  have hlength := (Decimal.length_digitsOf_le_iff (n := n) (k := 16) (by decide)).2 hlt
  exact hlength.trans (by decide)

/-- The record that is written under a key: with a key path that finds nothing in it, the key is
put into it, and else it is left as it is. -/
def recordWith (path : Option KeyPath) (record key : Value) : Except StoreFault Value :=
  match path with
  | some (.single p) =>
    match KeyPath.find? (.single p) record with
    | none => KeyPath.inject p key record
    | some _ => .ok record
  | _ => .ok record

theorem isStored_recordWith {path : Option KeyPath} {record key v : Value}
    (hp : ∀ p ∈ path, p.IsTagFree) (hk : key.IsStored) (hr : record.IsStored)
    (h : recordWith path record key = .ok v) : v.IsStored := by
  unfold recordWith at h
  split at h
  · split at h
    · exact KeyPath.isStored_inject (hp _ rfl) hk hr h
    · cases h
      exact hr
  · cases h
    exact hr

theorem useKey_cases {keying : Keying} {key record : Value} {r : Except Failure (Value × Value)}
    (h : c.useKey keying key record = (r, d)) :
    SameData c d ∧ ((∃ f, r = .error f) ∨ r = .ok (key, record)) := by
  unfold useKey at h
  split at h
  · next hraise =>
    cases h
    exact ⟨sameData_raiseGenerator hraise, .inl ⟨_, rfl⟩⟩
  · next hraise =>
    cases h
    exact ⟨sameData_raiseGenerator hraise, .inr rfl⟩

theorem useGenerated_cases (path : Option KeyPath) {record : Value}
    {r : Except Failure (Value × Value)} (hp : ∀ p ∈ path, p.find? record = none)
    (h : c.useGenerated path record = (r, d)) :
    SameData c d ∧ ((∃ f, r = .error f) ∨
      ∃ (n : Nat) (v : Value), r = .ok (.int n, v) ∧ n ≤ maxGenerated ∧
        recordWith path record (.int n) = .ok v) := by
  unfold useGenerated at h
  split at h
  · next hgenerate =>
    cases h
    exact ⟨sameData_generate hgenerate, .inl ⟨_, rfl⟩⟩
  · next n _ hgenerate =>
    have hsame := sameData_generate hgenerate
    have hle := le_of_generate hgenerate
    split at h
    · next p =>
      have hfind := hp _ rfl
      split at h
      · cases h
        exact ⟨hsame, .inl ⟨_, rfl⟩⟩
      · next v hinject =>
        cases h
        exact ⟨hsame, .inr ⟨n, v, rfl, hle, by rw [recordWith, hfind]; exact hinject⟩⟩
    · next hpath =>
      cases h
      refine ⟨hsame, .inr ⟨n, record, rfl, hle, ?_⟩⟩
      unfold recordWith
      split
      · exact absurd rfl (hpath _)
      · rfl

/-- What comes of the search for a key: a failure, a key that is given or found in the record, or a
key that is generated. -/
theorem resolveKey_cases {name : String} {keying : Keying} {record key : Value}
    {r : Except Failure (Value × Value)} (h : c.resolveKey name keying record key = (r, d)) :
    SameData c d ∧
      ((∃ f, r = .error f) ∨
        (∃ k, r = .ok (k, record) ∧ k.isValidKey = true ∧
          recordWith keying.keyPath record k = .ok record) ∨
        ∃ (n : Nat) (v : Value), r = .ok (.int n, v) ∧ n ≤ maxGenerated ∧
          recordWith keying.keyPath record (.int n) = .ok v) := by
  unfold resolveKey at h
  split at h
  · next path hpath =>
    split at h
    · cases h
      exact ⟨.refl c, .inl ⟨_, rfl⟩⟩
    split at h
    · next hnone =>
      split at h
      · obtain ⟨hsame, hr⟩ := useGenerated_cases _ (by rintro p ⟨⟩; exact hnone) h
        rw [hpath]
        exact ⟨hsame, hr.imp_right .inr⟩
      · cases h
        exact ⟨.refl c, .inl ⟨_, rfl⟩⟩
    · next found hfound =>
      split at h
      · next hvalid =>
        obtain ⟨hsame, hr⟩ := useKey_cases h
        refine ⟨hsame, hr.imp_right fun hr => .inl ⟨found, hr, hvalid, ?_⟩⟩
        rw [hpath]
        unfold recordWith
        split
        · next p heq =>
          cases heq
          rw [hfound]
        · rfl
      · cases h
        exact ⟨.refl c, .inl ⟨_, rfl⟩⟩
  · next hpath =>
    split at h
    · split at h
      · obtain ⟨hsame, hr⟩ := useGenerated_cases none nofun h
        rw [hpath]
        exact ⟨hsame, hr.imp_right .inr⟩
      · cases h
        exact ⟨.refl c, .inl ⟨_, rfl⟩⟩
    · split at h
      · next hvalid =>
        obtain ⟨hsame, hr⟩ := useKey_cases h
        exact ⟨hsame, hr.imp_right fun hr => .inl ⟨key, hr, hvalid, by rw [hpath]; rfl⟩⟩
      · cases h
        exact ⟨.refl c, .inl ⟨_, rfl⟩⟩

/-! ### Planning -/

theorem not_any_of_checkUnique {i : Index} {key record : Bytes}
    (h : i.checkUnique key record = .ok ()) (hu : i.spec.unique = true) {e : Entry}
    (he : e ∈ i.entries) (hkey : e.1 = key) : e.2 = record := by
  unfold Index.checkUnique at h
  split at h
  · obtain ⟨_, _, h⟩ := bind_eq_ok_iff.1 h
    cases h
  · next hcond =>
    by_contra hne
    apply hcond
    rw [hu, Bool.true_and, List.any_eq_true]
    exact ⟨e, he, by simp [hkey, hne]⟩

theorem checkUnique_of_checkAllUnique {i : Index} {record : Bytes} {keys : List Bytes}
    (h : i.checkAllUnique record keys = .ok ()) : ∀ key ∈ keys, i.checkUnique key record = .ok () := by
  induction keys with
  | nil => exact nofun
  | cons key rest ih =>
      obtain ⟨_, hkey, hrest⟩ := bind_eq_ok_iff.1 h
      exact List.forall_mem_cons.2 ⟨hkey, ih hrest⟩

/-- The entries that are planned for one index: the index keys of the record, which no other record
has in a unique index. -/
theorem planEntries_spec {key : Bytes} {record : Value} {indexes : List Index}
    {entries : List (String × Bytes)} (hn : (indexes.map Index.name).Nodup)
    (h : planEntries key record indexes = .ok entries) :
    (∀ e ∈ entries, e.1 ∈ indexes.map Index.name) ∧
      ∀ i ∈ indexes, ∃ keys, i.spec.keysFor record = .ok keys ∧
        (∀ k ∈ keys, i.checkUnique k key = .ok ()) ∧
        entries.filter (·.1 == i.name) = keys.map fun k => (i.name, k) := by
  induction indexes generalizing entries with
  | nil =>
      cases h
      exact ⟨nofun, nofun⟩
  | cons i rest ih =>
      simp only [planEntries] at h
      obtain ⟨keys, hkeys, h⟩ := bind_eq_ok_iff.1 h
      obtain ⟨_, hunique, h⟩ := bind_eq_ok_iff.1 h
      obtain ⟨others, hothers, h⟩ := bind_eq_ok_iff.1 h
      cases h
      rw [List.map_cons, List.nodup_cons] at hn
      obtain ⟨hnames, hrest⟩ := ih hn.2 hothers
      have hown : (keys.map fun k => (i.name, k)).filter (·.1 == i.name) =
          keys.map fun k => (i.name, k) := by
        rw [List.filter_eq_self]
        intro e he
        obtain ⟨k, _, rfl⟩ := List.mem_map.1 he
        exact beq_self_eq_true _
      refine ⟨?_, List.forall_mem_cons.2 ⟨⟨keys, hkeys, checkUnique_of_checkAllUnique hunique, ?_⟩, ?_⟩⟩
      · intro e he
        rcases List.mem_append.1 he with he | he
        · obtain ⟨k, _, rfl⟩ := List.mem_map.1 he
          exact List.mem_cons_self
        · exact List.mem_cons_of_mem _ (hnames e he)
      · rw [List.filter_append, hown, List.filter_eq_nil_iff.2, List.append_nil]
        intro e he hname
        rw [beq_iff_eq] at hname
        exact hn.1 (hname ▸ hnames e he)
      · intro j hj
        obtain ⟨keys', hkeys', hunique', hfilter⟩ := hrest j hj
        refine ⟨keys', hkeys', hunique', ?_⟩
        rw [List.filter_append, hfilter, List.filter_eq_nil_iff.2, List.nil_append]
        intro e he hname
        obtain ⟨k, _, rfl⟩ := List.mem_map.1 he
        have hij : i.name = j.name := beq_iff_eq.1 hname
        exact hn.1 (hij ▸ List.mem_map_of_mem hj)

theorem plan_spec {name : String} {key record : Value} {overwrite : Bool} {p : Plan}
    (h : c.plan name key record overwrite = .ok p) :
    key.encodeKey = .ok p.key ∧ p.replaces = (c.text? p.key).isSome ∧
      (p.replaces && !overwrite) = false ∧
      planEntries p.key record c.indexes = .ok p.entries ∧ record.dumps = .ok p.text := by
  simp only [plan] at h
  obtain ⟨encoded, hencoded, h⟩ := bind_eq_ok_iff.1 h
  split at h
  · cases h
  next hallowed =>
  obtain ⟨entries, hentries, h⟩ := bind_eq_ok_iff.1 h
  obtain ⟨text, htext, h⟩ := bind_eq_ok_iff.1 h
  cases h
  exact ⟨hencoded, rfl, Bool.not_eq_true _ ▸ hallowed, hentries,
    Key.storeResult_eq_ok_iff.1 htext⟩

/-! ### Carrying out a plan -/

/-- Entries of one record put into an index one after the other. -/
theorem mem_foldl_insert {record : Bytes} (entries : List (String × Bytes)) (i : Index) (e : Entry) :
    e ∈ (entries.foldl (fun i e => i.insert (e.2, record)) i).entries ↔
      e ∈ i.entries ∨ e.2 = record ∧ e.1 ∈ entries.map Prod.snd := by
  induction entries generalizing i with
  | nil => simp
  | cons entry rest ih =>
      rw [List.foldl_cons, ih, Index.insert, OrderedRows.mem_insertOnce Entry.isOrder, List.map_cons,
        List.mem_cons]
      constructor
      · rintro ((rfl | he) | ⟨he, hk⟩)
        · exact .inr ⟨rfl, .inl rfl⟩
        · exact .inl he
        · exact .inr ⟨he, .inr hk⟩
      · rintro (he | ⟨he, hk | hk⟩)
        · exact .inl (.inr he)
        · exact .inl (.inl (Prod.ext hk he))
        · exact .inr ⟨he, hk⟩

theorem foldl_insert_ascending {record : Bytes} (entries : List (String × Bytes)) {i : Index}
    (h : i.entries.Pairwise fun d e => Entry.lt d e = true) :
    (entries.foldl (fun i e => i.insert (e.2, record)) i).entries.Pairwise
      fun d e => Entry.lt d e = true := by
  induction entries generalizing i with
  | nil => exact h
  | cons e rest ih => exact ih (OrderedRows.pairwise_insertOnce Entry.isOrder _ h)

theorem foldl_insert_name_spec {record : Bytes} (entries : List (String × Bytes)) (i : Index) :
    (entries.foldl (fun i e => i.insert (e.2, record)) i).name = i.name ∧
      (entries.foldl (fun i e => i.insert (e.2, record)) i).spec = i.spec := by
  induction entries generalizing i with
  | nil => exact ⟨rfl, rfl⟩
  | cons e rest ih => exact ih _

theorem name_spec_updateIndex (p : Plan) (i : Index) :
    (p.updateIndex i).name = i.name ∧ (p.updateIndex i).spec = i.spec := by
  unfold Plan.updateIndex
  simp only
  split
  · exact foldl_insert_name_spec _ _
  · exact foldl_insert_name_spec _ _

/-- After a planned write an index has the entries that are kept of it and those that are planned. -/
theorem mem_updateIndex_iff {p : Plan} {i : Index} {e : Entry} : e ∈ (p.updateIndex i).entries ↔
    e ∈ (if p.replaces = true then i.dropWhere (· == p.key) else i).entries ∨
      e.2 = p.key ∧ (i.name, e.1) ∈ p.entries := by
  have hname : (if p.replaces = true then i.dropWhere (· == p.key) else i).name = i.name := by
    split <;> rfl
  have hplanned : e.1 ∈ (p.entries.filter (·.1 == i.name)).map Prod.snd ↔ (i.name, e.1) ∈ p.entries := by
    simp
  rw [Plan.updateIndex]
  simp only [hname]
  rw [mem_foldl_insert, hplanned]

theorem mem_entries_iff_of_filter {entries : List (String × Bytes)} {name : String} {keys : List Bytes}
    (h : entries.filter (·.1 == name) = keys.map fun k => (name, k)) (k : Bytes) :
    (name, k) ∈ entries ↔ k ∈ keys := by
  have hfilter : (name, k) ∈ entries ↔ (name, k) ∈ entries.filter (·.1 == name) := by simp
  rw [hfilter, h]
  simp

/-- The records after one is written. -/
theorem mem_insert_iff {records : List (Bytes × String)} (h : OrderedRows.Ascending Bytes.lt records)
    (key : Bytes) (text : String) (r : Bytes × String) :
    r ∈ OrderedRows.insert Bytes.lt key text records ↔
      r = (key, text) ∨ r.1 ≠ key ∧ r ∈ records := by
  obtain ⟨k, s⟩ := r
  rw [OrderedRows.mem_iff_lookup Bytes.isOrder (OrderedRows.ascending_insert Bytes.isOrder _ _ h)]
  by_cases hk : k = key
  · subst hk
    rw [OrderedRows.lookup_insert_self Bytes.isOrder]
    constructor
    · rintro ⟨⟩
      exact .inl rfl
    · rintro (h | h)
      · cases h
        rfl
      · exact absurd rfl h.1
  · rw [OrderedRows.lookup_insert_of_ne Bytes.isOrder hk,
      ← OrderedRows.mem_iff_lookup Bytes.isOrder h]
    constructor
    · exact fun h => .inr ⟨hk, h⟩
    · rintro (h | h)
      · cases h
        exact absurd rfl hk
      · exact h.2

/-- An index that agrees with the records agrees with them after a planned write, if the keys that
it is given are those of the record and pass its check. -/
theorem indexes_updateIndex {p : Plan} {i : Index} {record : Value} {keys : List Bytes}
    (hc : OrderedRows.Ascending Bytes.lt c.records) (hi : i.Indexes c.records)
    (hreplaces : p.replaces = (c.text? p.key).isSome) (hloads : Value.loads p.text = .ok record)
    (hkeys : i.spec.keysFor record = .ok keys)
    (hunique : ∀ k ∈ keys, i.checkUnique k p.key = .ok ())
    (hentries : p.entries.filter (·.1 == i.name) = keys.map fun k => (i.name, k)) :
    (p.updateIndex i).Indexes (OrderedRows.insert Bytes.lt p.key p.text c.records) := by
  have hspec := (name_spec_updateIndex p i).2
  -- the entries of other records stay, and those of this record are replaced
  have hmem (e : Entry) : e ∈ (p.updateIndex i).entries ↔
      e.2 ≠ p.key ∧ e ∈ i.entries ∨ e.2 = p.key ∧ e.1 ∈ keys := by
    have hold : e ∈ (if p.replaces = true then i.dropWhere (· == p.key) else i).entries ↔
        e.2 ≠ p.key ∧ e ∈ i.entries := by
      split
      · rw [Index.dropWhere, List.mem_filter, and_comm]
        simp
      · next hnot =>
        refine ⟨fun he => ⟨fun hkey => hnot ?_, he⟩, And.right⟩
        obtain ⟨text, hr⟩ := exists_mem_of_mem_entries hi he
        rw [hreplaces, Option.isSome_iff_exists]
        exact ⟨text, OrderedRows.lookup_of_mem Bytes.isOrder hc (hkey ▸ hr)⟩
    rw [mem_updateIndex_iff, hold, mem_entries_iff_of_filter hentries]
  constructor
  case keyed =>
    intro r hr
    rcases (mem_insert_iff hc _ _ _).1 hr with rfl | ⟨_, hr⟩
    · exact ⟨record, keys, hloads, hspec ▸ hkeys⟩
    · rw [hspec]
      exact hi.keyed r hr
  case ascending =>
    rw [Plan.updateIndex]
    refine foldl_insert_ascending _ ?_
    split
    · exact hi.ascending.filter _
    · exact hi.ascending
  case mem_iff =>
    intro e
    rw [hmem, hspec, hi.mem_iff]
    constructor
    · rintro (⟨hne, text, v, ks, hr, hv⟩ | ⟨hkey, hmem⟩)
      · exact ⟨text, v, ks, (mem_insert_iff hc _ _ _).2 (.inr ⟨hne, hr⟩), hv⟩
      · exact ⟨p.text, record, keys, (mem_insert_iff hc _ _ _).2 (.inl (by rw [hkey])), hloads,
          hkeys, hmem⟩
    · rintro ⟨text, v, ks, hr, hv, hks, hmem⟩
      rcases (mem_insert_iff hc _ _ _).1 hr with h | ⟨hne, hr⟩
      · obtain ⟨hkey, rfl⟩ := Prod.mk.inj h
        rw [hloads] at hv
        cases hv
        rw [hkeys] at hks
        cases hks
        exact .inr ⟨hkey, hmem⟩
      · exact .inl ⟨hne, text, v, ks, hr, hv, hks, hmem⟩
  case unique =>
    intro hu d hd e he hde
    rw [hspec] at hu
    rcases (hmem d).1 hd with ⟨hdne, hd⟩ | ⟨hdkey, hd⟩
    · rcases (hmem e).1 he with ⟨_, he⟩ | ⟨_, he⟩
      · exact hi.unique hu d hd e he hde
      · exact absurd (not_any_of_checkUnique (hunique e.1 he) hu hd hde) hdne
    · rcases (hmem e).1 he with ⟨hene, he⟩ | ⟨hekey, _⟩
      · exact absurd (not_any_of_checkUnique (hunique d.1 hd) hu he hde.symm) hene
      · exact hdkey.trans hekey.symm

theorem isConsistent_carryOut {p : Plan} {name : String} {key record : Value} {overwrite : Bool}
    (h : c.IsConsistent flawed) (hr : record.IsStored)
    (hp : c.plan name key record overwrite = .ok p) : (c.carryOut p).IsConsistent flawed := by
  obtain ⟨_, hreplaces, _, hentries, hdumps⟩ := plan_spec hp
  have hloads := Value.loads_of_dumps hr hdumps
  obtain ⟨_, hspec⟩ := planEntries_spec h.names hentries
  constructor
  case ascending => exact OrderedRows.ascending_insert Bytes.isOrder _ _ h.ascending
  case readable =>
    intro r hmem
    rcases (mem_insert_iff h.ascending _ _ _).1 hmem with rfl | ⟨_, hmem⟩
    · exact ⟨record, hloads⟩
    · exact h.readable r hmem
  case names =>
    rw [carryOut]
    simp only [names_map fun i => (name_spec_updateIndex p i).1]
    exact h.names
  case indexed =>
    intro i hi hn
    obtain ⟨j, hj, rfl⟩ := List.mem_map.1 hi
    rw [(name_spec_updateIndex p j).1] at hn
    obtain ⟨keys, hkeys, hunique, hfilter⟩ := hspec j hj
    exact indexes_updateIndex h.ascending (h.indexed j hj hn) hreplaces hloads hkeys hunique hfilter

/-! ### Writing -/

/-- What comes of a write: a failure that leaves the records and the indexes alone, or a plan for
the record with its key that is carried out. -/
theorem write_cases {name : String} {keying : Keying} {value key : Value} {overwrite : Bool}
    {r : Except Failure Value} (h : c.write name keying value key overwrite = (r, d)) :
    (∃ f, r = .error f ∧ SameData c d) ∨
      ∃ k record v c' p, value.clone = .ok record ∧ r = .ok k ∧ SameData c c' ∧
        c.resolveKey name keying record key = (.ok (k, v), c') ∧
        c'.plan name k v overwrite = .ok p ∧ d = c'.carryOut p := by
  unfold write at h
  split at h
  · cases h
    exact .inl ⟨_, rfl, .refl c⟩
  next record hclone =>
  split at h
  · next f c' hresolve =>
    cases h
    exact .inl ⟨_, rfl, (resolveKey_cases hresolve).1⟩
  next k v c' hresolve =>
  have hsame := (resolveKey_cases hresolve).1
  split at h
  · cases h
    exact .inl ⟨_, rfl, hsame⟩
  · next p hplan =>
    cases h
    exact .inr ⟨k, record, v, c', p, hclone, rfl, hsame, hresolve, hplan, rfl⟩

/-- The record that is written is the clone of the value, with the key put into it if it was
generated; it is a stored value. -/
theorem isStored_of_resolveKey {name : String} {keying : Keying} {record key k v : Value}
    (hp : ∀ p ∈ keying.keyPath, p.IsTagFree) (hr : record.IsStored)
    (h : c.resolveKey name keying record key = (.ok (k, v), d)) :
    v.IsStored ∧ recordWith keying.keyPath record k = .ok v := by
  rcases (resolveKey_cases h).2 with ⟨_, h⟩ | ⟨_, h, _, hwith⟩ | ⟨n, _, h, hle, hwith⟩
  · cases h
  · cases h
    exact ⟨hr, hwith⟩
  · cases h
    exact ⟨isStored_recordWith hp (isStored_generated hle) hr hwith, hwith⟩

theorem isConsistent_write {name : String} {keying : Keying} {value key : Value} {overwrite : Bool}
    {r : Except Failure Value} (hc : c.IsConsistent flawed)
    (hp : ∀ p ∈ keying.keyPath, p.IsTagFree)
    (h : c.write name keying value key overwrite = (r, d)) : d.IsConsistent flawed := by
  rcases write_cases h with ⟨_, _, hsame⟩ | ⟨k, record, v, c', p, hclone, _, hsame, hresolve, hplan, rfl⟩
  · exact hc.congr hsame.records hsame.indexes
  · exact isConsistent_carryOut (hc.congr hsame.records hsame.indexes)
      (isStored_of_resolveKey hp (Value.isStored_of_clone hclone) hresolve).1 hplan

end Collection
end RecordStore
