import RecordStore.Proofs.Query.Passage
import RecordStore.Proofs.Query.Rules

/-!
A query that modifies records, midway. It reads a source while it rewrites what the source leads to, and
still it reads what was there when it began: no row that is left leads to a record that it has modified.
The invariant tells what became of the records modified so far, and that the rows ahead of the cursor are
those that were ahead of it in the beginning. Whether a write leaves the rows ahead alone depends on the
source, and is assumed here.
-/

namespace RecordStore

open Effect

/-! ### Cursors and the rows that they face -/

theorem Collection.view_of_load {c : Collection} {key : Bytes} {v : Value}
    (hthere : key ∈ c.records.map Prod.fst) (h : c.load key = .ok v) : c.view key = some v := by
  unfold load at h
  unfold view
  cases htext : c.text? key with
  | none =>
      obtain ⟨r, hr, rfl⟩ := List.mem_map.1 hthere
      have hne := List.lookup_eq_none_iff.1 htext r hr
      simp at hne
  | some text =>
      rw [htext] at h
      simp [Key.formatResult_eq_ok_iff.1 h, Except.toOption]

/-- What is under a key of a collection is a value that was stored, and so it comes back. -/
theorem Collection.isStored_of_view {c : Collection} {key : Bytes} {v : Value}
    (h : c.view key = some v) : v.IsStored ∧ v.clone = .ok v ∧ key ∈ c.records.map Prod.fst := by
  obtain ⟨text, htext, hv⟩ := Option.bind_eq_some_iff.1 h
  have hstored := Value.isStored_of_loads (eq_ok_of_toOption hv)
  obtain ⟨s, hdumps, hloads⟩ := Value.loads_dumps hstored
  refine ⟨hstored, ?_, mem_keys_of_text? htext⟩
  simp [Value.clone, hdumps, hloads]

namespace Cursor

variable {origin cur next : Cursor} {c d : Collection} {row : Entry} {rest : List Entry}

/-- A cursor stands on a row and presents the record that it leads to, with its key. -/
structure Presents (cur : Cursor) (c : Collection) (row : Entry) : Prop where
  isDone : cur.isDone = false
  position : cur.position = some row
  primaryKey : Key.decode row.2 = .ok cur.primaryKey
  value : c.view row.2 = some cur.value

/-- A cursor faces some rows: it stands on the first of them and has just the others ahead. -/
def Faces (cur origin : Cursor) (c : Collection) : List Entry → Prop
  | [] => cur.isDone = true
  | row :: rest => cur.Presents c row ∧ row ∈ c.rows origin.source ∧
    Scan.remaining origin.conditions origin.direction (some row) (c.rows origin.source) = rest

/-- A cursor that is moved to a row and does not fail presents the record. -/
theorem presents_of_moveTo (hdone : cur.isDone = false) (hkeyOnly : cur.keyOnly = false)
    (hthere : row.2 ∈ c.records.map Prod.fst) (h : cur.moveTo c row = (.ok (), next)) :
    next.Presents c row := by
  unfold moveTo at h
  split at h
  · cases h
  · split at h
    · cases h
    · next p hp =>
      simp only [showValue, hkeyOnly, Bool.false_eq_true, if_false] at h
      split at h
      · cases h
      · next v hv =>
        cases h
        exact ⟨hdone, rfl, hp, Collection.view_of_load hthere hv⟩

/-- Before it is moved a cursor has some rows ahead; a step that does not fail drops all those before
the one that it is to come to. -/
theorem faces_of_step (hsame : SameScan origin cur) (hdone : cur.isDone = false)
    (hkeyOnly : origin.keyOnly = false)
    (hrows : (c.rows origin.source).Pairwise fun a b => Entry.lt a b = true)
    (hthere : ∀ row ∈ c.rows origin.source, row.2 ∈ c.records.map Prod.fst)
    (hrest : Scan.remaining origin.conditions origin.direction cur.position (c.rows origin.source) =
      rest) {count : Nat} (hstep : cur.step c count = (.ok (), next)) :
    SameScan origin next ∧ next.Faces origin c (rest.drop (count - 1)) := by
  have hfetch : cur.fetch c (count - 1) = rest[count - 1]? := by
    rw [fetch, hsame.conditions, hsame.direction, hsame.source, hrest]
  rw [step, hfetch] at hstep
  cases hrow : rest[count - 1]? with
  | none =>
      rw [hrow] at hstep
      cases hstep
      rw [List.drop_eq_nil_of_le (List.getElem?_eq_none_iff.1 hrow)]
      exact ⟨⟨hsame.source, hsame.conditions, hsame.direction, hsame.keyOnly⟩, rfl⟩
  | some row =>
      rw [hrow] at hstep
      obtain ⟨hlt, hget⟩ := List.getElem?_eq_some_iff.1 hrow
      have hmem : row ∈ c.rows origin.source := by
        have hremaining : row ∈ rest := hget ▸ List.getElem_mem hlt
        rw [← hrest] at hremaining
        exact ((Scan.mem_ordered_iff hrows).1 (List.mem_of_mem_filter hremaining)).1
      have hpresents : next.Presents c row :=
        presents_of_moveTo hdone (hsame.keyOnly.trans hkeyOnly) (hthere row hmem) hstep
      have hsplit : rest = rest.take (count - 1) ++ row :: rest.drop (count - 1 + 1) := by
        rw [← hget, ← List.drop_eq_getElem_cons hlt, List.take_append_drop]
      obtain ⟨k, p, v, hmoved⟩ := exists_moveTo_eq cur c row
      rw [show cur.moveTo c row = (.ok (), next) from hstep] at hmoved
      have hnext : SameScan origin next := by
        rw [show next = _ from hmoved]
        exact ⟨hsame.source, hsame.conditions, hsame.direction, hsame.keyOnly⟩
      rw [List.drop_eq_getElem_cons hlt, hget]
      exact ⟨hnext, hpresents, hmem, Scan.remaining_some hrows (hrest.trans hsplit)⟩

/-- A property of collections under which a cursor is safe: the records and the rows of its source are in
order, each row leads to a record, and it is kept when a record is written back. -/
structure SafeUnder (origin : Cursor) (keying : Keying) (Γ : Collection → Prop) : Prop where
  records : ∀ c, Γ c → OrderedRows.Ascending Bytes.lt c.records
  rows : ∀ c, Γ c → (c.rows origin.source).Pairwise fun a b => Entry.lt a b = true
  there : ∀ c, Γ c → ∀ row ∈ c.rows origin.source, row.2 ∈ c.records.map Prod.fst
  written : ∀ name key record c d, Γ c → c.WritesBack name keying key record d → Γ d

/-- To replace the record that a row leads to leaves the rows ahead of it alone. -/
def Steady (origin : Cursor) (Γ : Collection → Prop) (row : Entry) (v : Value) : Prop :=
  ∀ c d, Γ c → Γ d → row ∈ c.rows origin.source → c.Replaces row.2 v d →
    Scan.remaining origin.conditions origin.direction (some row) (d.rows origin.source) =
      Scan.remaining origin.conditions origin.direction (some row) (c.rows origin.source)

end Cursor

namespace Query

variable {q : Query} {c d d' : Collection} {done : List (Bytes × Value)} {r : Bytes × Value} {v : Value}

/-! ### What a query makes of records -/

/-- The record that a query writes back in place of one: the clone of what its rule makes of it. -/
def remade (q : Query) (v : Value) : Except Failure Value := q.modified v >>= Value.clone

/-- What a query yields for a record that it modifies. -/
def outcome (q : Query) (v : Value) : Except Failure Value := q.modified v >>= q.map

theorem isProper_of_modified {rule : Rule} (hrule : q.rule = some rule) (hproper : rule.IsProper)
    (hv : v.IsProper) {m : Value} (h : q.modified v = .ok m) : m.IsProper := by
  cases rule with
  | nil =>
      simp only [modified, hrule] at h
      cases h
      exact hv
  | cons a rest => exact Rule.isProper_of_apply hproper hv (modified_of_rule hrule v ▸ h)

/-- An index key leads to a record in an index once some records were modified: to one of these by its
new keys, and to others as it did before. -/
def LeadsTo (q : Query) (i : Index) (done : List (Bytes × Value)) (k key : Bytes) : Prop :=
  (k, key) ∈ i.entries ∧ key ∉ done.map Prod.fst ∨
    ∃ r ∈ done, r.1 = key ∧ ∃ v keys, q.remade r.2 = .ok v ∧ i.spec.keysFor v = .ok keys ∧ k ∈ keys

/-- A collection is updated at some of its records, given with their keys: it holds what the query makes
of each of them, as it was, and else what it held before, under the same keys. -/
structure Updates (q : Query) (c : Collection) (done : List (Bytes × Value)) (d : Collection) :
    Prop where
  keys : d.records.map Prod.fst = c.records.map Prod.fst
  own : ∀ r ∈ done, ∃ v, q.remade r.2 = .ok v ∧ d.view r.1 = some v
  others : ∀ key, key ∉ done.map Prod.fst → d.view key = c.view key

/-- What becomes of a collection and its indexes when some of its records are modified one by one. -/
structure After (q : Query) (c : Collection) (done : List (Bytes × Value)) (d : Collection) : Prop
    extends q.Updates c done d where
  indexes : q.isWriting = true → ∃ f : Index → Index, d.indexes = c.indexes.map f ∧
    ∀ i ∈ c.indexes, (f i).spec = i.spec ∧ ∀ k key, q.LeadsTo i done k key → (k, key) ∈ (f i).entries

theorem after_nil (q : Query) (c : Collection) : q.After c [] c where
  keys := rfl
  own := nofun
  others _ _ := rfl
  indexes _ := ⟨id, c.indexes.map_id.symm, fun i _ => ⟨rfl, fun k key h => by simpa [LeadsTo] using h⟩⟩

theorem not_mem_keys_append {key : Bytes} : key ∉ (done ++ [r]).map Prod.fst ↔
    key ∉ done.map Prod.fst ∧ key ≠ r.1 := by
  rw [List.map_append, List.mem_append, not_or, List.map_singleton, List.mem_singleton]

/-- A further record is modified and written back. -/
theorem After.replaces (h : q.After c done d) (hv : q.remade r.2 = .ok v)
    (hnew : r.1 ∉ done.map Prod.fst) (hd : d.Replaces r.1 v d') : q.After c (done ++ [r]) d' := by
  have hview (key : Bytes) (hkey : key ≠ r.1) : d'.view key = d.view key := by
    rw [Collection.view, Collection.view, hd.others key hkey]
  refine ⟨⟨hd.keys.trans h.keys, ?_, ?_⟩, fun hwriting => ?_⟩
  · intro s hs
    rcases List.mem_append.1 hs with hs | hs
    · have hne : s.1 ≠ r.1 := fun heq => hnew (heq ▸ List.mem_map_of_mem hs)
      rw [hview s.1 hne]
      exact h.own s hs
    · obtain rfl := List.mem_singleton.1 hs
      exact ⟨v, hv, hd.own⟩
  · intro key hkey
    obtain ⟨hdone, hne⟩ := not_mem_keys_append.1 hkey
    rw [hview key hne, h.others key hdone]
  · obtain ⟨f, hf, hspec⟩ := h.indexes hwriting
    obtain ⟨g, hg, hfollows⟩ := hd.indexes
    refine ⟨g ∘ f, by rw [hg, hf, List.map_map], fun i hi => ?_⟩
    obtain ⟨hsame, hentries⟩ := hspec i hi
    have hfollow := hfollows (f i) (hf ▸ List.mem_map_of_mem hi)
    refine ⟨hfollow.spec.trans hsame, fun k key hleads => ?_⟩
    rcases hleads with ⟨hmem, hkey⟩ | ⟨s, hs, rfl, w, keys, hw, hkeys, hk⟩
    · -- an entry of a record that was not modified
      obtain ⟨hdone, hne⟩ := not_mem_keys_append.1 hkey
      exact hfollow.others _ (hentries k key (.inl ⟨hmem, hdone⟩)) hne
    · rcases List.mem_append.1 hs with hs | hs
      · -- an entry of a record that was modified before
        have hne : s.1 ≠ r.1 := fun heq => hnew (heq ▸ List.mem_map_of_mem hs)
        exact hfollow.others _ (hentries k s.1 (.inr ⟨s, hs, rfl, w, keys, hw, hkeys, hk⟩)) hne
      · -- an entry of the record that is modified now
        obtain rfl := List.mem_singleton.1 hs
        obtain ⟨keys', hkeys', _, hmem⟩ := hfollow.keyed
        cases hw.symm.trans hv
        rw [hsame] at hkeys'
        cases hkeys.symm.trans hkeys'
        exact hmem k hk

/-- To a query that sets nothing, a record that it comes to is one that it has modified. -/
theorem After.append (h : q.After c done d) (hwriting : q.isWriting = false)
    (hv : q.remade r.2 = .ok v) (hview : d.view r.1 = some v) : q.After c (done ++ [r]) d where
  keys := h.keys
  own s hs := by
    rcases List.mem_append.1 hs with hs | hs
    · exact h.own s hs
    · obtain rfl := List.mem_singleton.1 hs
      exact ⟨v, hv, hview⟩
  others key hkey := h.others key (not_mem_keys_append.1 hkey).1
  indexes hwriting' := by
    rw [hwriting] at hwriting'
    cases hwriting'

/-- A query can modify a record once it has modified some: its rule and function fail on none of it, and
if it is to be written back it keeps its key and no unique index has an index key of it for another. -/
structure Admits (q : Query) (keying : Keying) (c : Collection) (done : List (Bytes × Value))
    (r : Bytes × Value) : Prop where
  made : ∃ m w, q.modified r.2 = .ok m ∧ q.map m = .ok w
  kept : q.isWriting = true → ∀ path ∈ keying.keyPath, ∀ m, q.modified r.2 = .ok m →
    ∃ found, path.find? m = some found ∧ found.encodeKey = .ok r.1
  apart : q.isWriting = true → ∀ i ∈ c.indexes, i.spec.unique = true → ∀ v keys,
    q.remade r.2 = .ok v → i.spec.keysFor v = .ok keys → ∀ k ∈ keys, ∀ key,
      q.LeadsTo i done k key → key = r.1

section Modifying

variable {name : String} {keying : Keying} {origin cur : Cursor} {Γ : Collection → Prop}
  {c₀ : Collection} {row : Entry} {m w : Value} {rule : Rule}

/-- What a query does to a record that its cursor presents. -/
theorem Modifies.spec (h : q.Modifies name keying cur c cur.value m d) (hmap : q.map m = .ok w)
    (hrule : q.rule = some rule) (hproper : rule.IsProper) (hgenerates : keying.GeneratesSingly)
    (hsafe : origin.SafeUnder keying Γ) (hc : Γ c) (hafter : q.After c₀ done c)
    (hpresents : cur.Presents c row) (hdates : row.2.IsDateFree) (hnew : row.2 ∉ done.map Prod.fst) :
    Γ d ∧ q.After c₀ (done ++ [(row.2, cur.value)]) d ∧ q.Admits keying c₀ done (row.2, cur.value) ∧
      (d = c ∨ ∃ v, q.remade cur.value = .ok v ∧ c.Replaces row.2 v d) := by
  obtain ⟨hstored, hclone, hthere⟩ := Collection.isStored_of_view hpresents.value
  obtain ⟨hmade, hwritten⟩ := h
  cases hwriting : q.isWriting with
  | false =>
      rw [hwriting, if_neg Bool.false_ne_true] at hwritten
      subst hwritten
      cases (modified_of_not_isWriting hwriting _).symm.trans hmade
      have hremade : q.remade cur.value = .ok cur.value := by rw [remade, hmade, ok_bind, hclone]
      refine ⟨hc, hafter.append hwriting hremade hpresents.value, ⟨⟨_, w, hmade, hmap⟩, ?_, ?_⟩,
        .inl rfl⟩
      · intro htrue
        simp [hwriting] at htrue
      · intro htrue
        simp [hwriting] at htrue
  | true =>
      rw [hwriting, if_pos rfl] at hwritten
      have hkey := (Bytes.encodes_of_decode hdates hpresents.primaryKey).2
      obtain ⟨v, hv, hreplaces⟩ := hwritten.exists_replaces hgenerates (hsafe.records c hc) hdates hkey
        hthere (isProper_of_modified hrule hproper (Value.isProper_of_isStored hstored) hmade)
      have hremade : q.remade cur.value = .ok v := by rw [remade, hmade, ok_bind, hv]
      refine ⟨hsafe.written _ _ _ _ _ hc hwritten, hafter.replaces hremade hnew hreplaces,
        ⟨⟨m, w, hmade, hmap⟩, ?_, ?_⟩, .inr ⟨v, hremade, hreplaces⟩⟩
      · intro _ path hpath m' hm'
        cases hmade.symm.trans hm'
        exact Collection.exists_key_of_checkKept (hwritten.kept path hpath) hkey
      · -- the index as it is now has all these entries, and refused none of the keys
        intro _ i hi hunique v' keys hv' hkeys k hk key hleads
        cases hremade.symm.trans hv'
        obtain ⟨f, hf, hspec⟩ := hafter.indexes hwriting
        obtain ⟨hsame, hentries⟩ := hspec i hi
        obtain ⟨g, _, hfollows⟩ := hreplaces.indexes
        obtain ⟨keys', hkeys', hchecked, _⟩ := (hfollows (f i) (hf ▸ List.mem_map_of_mem hi)).keyed
        rw [hsame] at hkeys'
        cases hkeys.symm.trans hkeys'
        exact Collection.not_any_of_checkUnique (hchecked k hk) (hsame ▸ hunique) (hentries k key hleads)
          rfl

end Modifying

/-! ### Which records a query modifies -/

/-- The records that some rows lead to, each with its key. -/
def recordsOf (c : Collection) (rows : List Entry) : List (Bytes × Value) :=
  rows.filterMap fun row => (c.view row.2).map (row.2, ·)

/-- Those of them that a query accepts. -/
def accepted (q : Query) (c : Collection) (rows : List Entry) : List (Bytes × Value) :=
  (recordsOf c rows).filter fun r => q.accepts r.2

/-- Those of them that it takes when so many rows were skipped or taken. -/
def taken (q : Query) (passed : Nat) (c : Collection) (rows : List Entry) : List (Bytes × Value) :=
  q.takeFrom passed (q.accepted c rows)

variable {row : Entry} {rows rest : List Entry} {passed : Nat}

theorem accepted_cons (hv : c.view row.2 = some v) (q : Query) (rows : List Entry) :
    q.accepted c (row :: rows) =
      if q.accepts v then (row.2, v) :: q.accepted c rows else q.accepted c rows := by
  simp [accepted, recordsOf, hv, List.filter_cons]

theorem taken_cons_of_accepts (hv : c.view row.2 = some v) (haccepts : q.accepts v = true)
    (hfull : q.isFull passed = false) :
    q.taken passed c (row :: rest) = (row.2, v) :: q.taken (passed + 1) c rest := by
  rw [taken, accepted_cons hv, if_pos haccepts, takeFrom_cons hfull]
  rfl

theorem taken_cons_of_not_accepts (hv : c.view row.2 = some v) (haccepts : q.accepts v = false) :
    q.taken passed c (row :: rest) = q.taken passed c rest := by
  rw [taken, accepted_cons hv, haccepts, if_neg Bool.false_ne_true]
  rfl

theorem isFull_mono {others : Nat} (h : q.isFull passed = true) (hle : passed ≤ others) :
    q.isFull others = true := by
  obtain ⟨w, hwindow, hfull⟩ := (Option.any_eq_true _ _).1 h
  exact (Option.any_eq_true _ _).2 ⟨w, hwindow, decide_eq_true ((of_decide_eq_true hfull).trans hle)⟩

/-! ### To the end of a passage -/

section Walk

variable {name : String} {keying : Keying} {origin cur : Cursor} {Γ : Collection → Prop}
  {c₀ : Collection} {results : List Value}

/-- A query is midway: it has modified some records, and its cursor faces rows of which none leads to
one of them, and no two to one record. -/
structure IsMidway (q : Query) (origin : Cursor) (Γ : Collection → Prop) (c₀ : Collection)
    (done : List (Bytes × Value)) (cur : Cursor) (c : Collection) (rest : List Entry) : Prop where
  after : q.After c₀ done c
  sound : Γ c
  same : Cursor.SameScan origin cur
  faces : cur.Faces origin c rest
  apart : ∀ row ∈ rest, row.2 ∉ done.map Prod.fst
  once : (rest.map Prod.snd).Nodup

/-- What a query has done at its end with the rows that it faced: it has modified those that it takes,
in their order, and its filters failed for none that it came to. -/
structure Finishes (q : Query) (keying : Keying) (c₀ : Collection) (done : List (Bytes × Value))
    (passed : Nat) (rest : List Entry) (results : List Value) (d : Collection) : Prop where
  after : q.After c₀ (done ++ q.taken passed c₀ rest) d
  results : List.Forall₂ (fun r w => q.outcome r.2 = .ok w) (q.taken passed c₀ rest) results
  admits : ∀ pre r post, q.taken passed c₀ rest = pre ++ r :: post → q.Admits keying c₀ (done ++ pre) r
  filters : ∀ pre row post, rest = pre ++ row :: post →
    q.isFull (passed + (q.accepted c₀ pre).length) = false →
      ∃ v, c₀.view row.2 = some v ∧ Filter.allHold q.filters v = .ok (q.accepts v, v)

theorem finishes_nil (h : q.After c₀ done d) (passed : Nat) :
    q.Finishes keying c₀ done passed [] [] d := by
  have htaken : q.taken passed c₀ [] = [] := takeFrom_nil q passed
  refine ⟨?_, ?_, ?_, ?_⟩
  · rwa [htaken, List.append_nil]
  · rw [htaken]
    exact .nil
  · simp [htaken]
  · simp

theorem finishes_of_isFull (h : q.After c₀ done d) (hfull : q.isFull passed = true) :
    q.Finishes keying c₀ done passed rest [] d := by
  have htaken : q.taken passed c₀ rest = [] := takeFrom_of_isFull hfull
  refine ⟨?_, ?_, ?_, fun pre row post _ hopen => ?_⟩
  · rwa [htaken, List.append_nil]
  · rw [htaken]
    exact .nil
  · simp [htaken]
  · rw [isFull_mono hfull (Nat.le_add_right _ _)] at hopen
    cases hopen

/-- A row whose record is not accepted changes nothing of what is told. -/
theorem Finishes.pass (h : q.Finishes keying c₀ done passed rest results d)
    (hv : c₀.view row.2 = some v) (haccepts : q.accepts v = false)
    (hfilters : Filter.allHold q.filters v = .ok (false, v)) :
    q.Finishes keying c₀ done passed (row :: rest) results d := by
  have htaken : q.taken passed c₀ (row :: rest) = q.taken passed c₀ rest :=
    taken_cons_of_not_accepts hv haccepts
  refine ⟨htaken.symm ▸ h.after, htaken.symm ▸ h.results, htaken.symm ▸ h.admits, ?_⟩
  intro pre other post hrest hopen
  cases pre with
  | nil =>
      cases hrest
      exact ⟨v, hv, by rw [hfilters, haccepts]⟩
  | cons first pre =>
      cases hrest
      rw [accepted_cons hv, haccepts, if_neg Bool.false_ne_true] at hopen
      exact h.filters pre other post rfl hopen

/-- A row whose record is accepted adds one that is taken, before the others. -/
theorem Finishes.take {w : Value}
    (h : q.Finishes keying c₀ (done ++ [(row.2, v)]) (passed + 1) rest results d)
    (hv : c₀.view row.2 = some v) (haccepts : q.accepts v = true) (hfull : q.isFull passed = false)
    (hfilters : Filter.allHold q.filters v = .ok (true, v))
    (hadmits : q.Admits keying c₀ done (row.2, v)) (hw : q.outcome v = .ok w) :
    q.Finishes keying c₀ done passed (row :: rest) (w :: results) d := by
  have htaken : q.taken passed c₀ (row :: rest) = (row.2, v) :: q.taken (passed + 1) c₀ rest :=
    taken_cons_of_accepts hv haccepts hfull
  refine ⟨?_, ?_, ?_, ?_⟩
  · rw [htaken]
    simpa using h.after
  · rw [htaken]
    exact .cons hw h.results
  · intro pre r post hsplit
    rw [htaken] at hsplit
    cases pre with
    | nil =>
        cases hsplit
        rwa [List.append_nil]
    | cons first pre =>
        obtain ⟨rfl, hrest⟩ := List.cons.inj hsplit
        simpa using h.admits pre r post hrest
  · intro pre other post hrest hopen
    cases pre with
    | nil =>
        cases hrest
        exact ⟨v, hv, by rw [hfilters, haccepts]⟩
    | cons first pre =>
        cases hrest
        rw [accepted_cons hv, haccepts, if_pos rfl, List.length_cons] at hopen
        refine h.filters pre other post rfl ?_
        rw [← hopen]
        congr 1
        omega

theorem subject_of_state (hstate : q.state ≠ .keys) (cur : Cursor) : q.subject cur = cur.value :=
  if_neg hstate

variable (hkeyOnly : origin.keyOnly = false) (hstate : q.state ≠ .keys)
  (hpure : ∀ f ∈ q.filters, f.IsPure) (hsafe : origin.SafeUnder keying Γ)

include hkeyOnly hsafe

/-- From a row a step that does not fail leads to those after it. -/
theorem IsMidway.step (h : q.IsMidway origin Γ c₀ done cur c (row :: rest)) {next : Cursor} {count : Nat}
    (hcount : 0 < count) (hstep : cur.step c count = (.ok (), next)) :
    q.IsMidway origin Γ c₀ done next c ((row :: rest).drop count) := by
  obtain ⟨hpresents, hmem, hahead⟩ := h.faces
  rw [← hpresents.position] at hahead
  obtain ⟨hsame, hfaces⟩ := Cursor.faces_of_step h.same hpresents.isDone hkeyOnly (hsafe.rows c h.sound)
    (hsafe.there c h.sound) hahead hstep
  obtain ⟨n, rfl⟩ := Nat.exists_eq_add_one_of_ne_zero hcount.ne'
  have hsub : ((row :: rest).drop (n + 1)).Sublist (row :: rest) := List.drop_sublist _ _
  exact ⟨h.after, h.sound, hsame, hfaces, fun other hother => h.apart other (hsub.subset hother),
    h.once.sublist (hsub.map _)⟩

variable {rule : Rule} (hrule : q.rule = some rule) (hproper : rule.IsProper)
  (hgenerates : keying.GeneratesSingly) (hdates : ∀ r ∈ c₀.records, r.1.IsDateFree)

include hrule hproper hgenerates hdates

/-- A record that is modified is one more of those that were, and the rows ahead stay where they are. -/
theorem IsMidway.modifies (h : q.IsMidway origin Γ c₀ done cur c (row :: rest)) {m w : Value}
    (hmodifies : q.Modifies name keying cur c cur.value m d) (hmap : q.map m = .ok w)
    (hsteady : ∀ v, q.remade cur.value = .ok v → origin.Steady Γ row v) {next : Cursor}
    (hstep : cur.step d 1 = (.ok (), next)) : q.Admits keying c₀ done (row.2, cur.value) ∧
      q.IsMidway origin Γ c₀ (done ++ [(row.2, cur.value)]) next d rest := by
  obtain ⟨hpresents, hmem, hahead⟩ := h.faces
  have hkey : row.2 ∈ c₀.records.map Prod.fst :=
    h.after.keys ▸ (Collection.isStored_of_view hpresents.value).2.2
  obtain ⟨s, hs, hsrow⟩ := List.mem_map.1 hkey
  obtain ⟨hd, hafter, hadmits, hwhat⟩ := hmodifies.spec hmap hrule hproper hgenerates hsafe h.sound
    h.after hpresents (hsrow ▸ hdates s hs) (h.apart row List.mem_cons_self)
  -- the rows ahead in the collection as it is now
  have hahead' : Scan.remaining origin.conditions origin.direction cur.position (d.rows origin.source) =
      rest := by
    rw [hpresents.position, ← hahead]
    rcases hwhat with rfl | ⟨v, hv, hreplaces⟩
    · rfl
    · exact hsteady v hv c d h.sound hd hmem hreplaces
  obtain ⟨hsame, hfaces⟩ := Cursor.faces_of_step h.same hpresents.isDone hkeyOnly (hsafe.rows d hd)
    (hsafe.there d hd) hahead' hstep
  obtain ⟨hfirst, honce⟩ := List.nodup_cons.1 h.once
  refine ⟨hadmits, hafter, hd, hsame, hfaces, fun other hother => ?_, honce⟩
  have hne : other.2 ≠ row.2 := fun heq => hfirst (heq ▸ List.mem_map_of_mem hother)
  exact not_mem_keys_append.2 ⟨h.apart other (List.mem_cons_of_mem row hother), hne⟩

include hstate hpure

/-- A passage from midway on, once the rows to be skipped are passed over, has modified at its end just
the records that the query takes of those that it faced, read as they were in the beginning. -/
theorem finishes_of_passage (hpassage : Passage q name keying cur passed c results d)
    (hskip : q.skip ≤ passed) (h : q.IsMidway origin Γ c₀ done cur c rest)
    (hsteady : ∀ r ∈ q.taken passed c₀ rest, ∀ row ∈ rest, row.2 = r.1 → ∀ v, q.remade r.2 = .ok v →
      origin.Steady Γ row v) : q.Finishes keying c₀ done passed rest results d := by
  -- each way on keeps the query midway, with one more record modified or with the same ones
  induction hpassage generalizing done rest with
  | @done cur passed c hdone =>
      cases rest with
      | nil => exact finishes_nil h.after passed
      | cons row rest =>
          have hpresents := h.faces.1
          rw [hpresents.isDone] at hdone
          cases hdone
  | skip _ hpassed => exact absurd hskip (Nat.not_le.2 hpassed)
  | full _ _ hfull => exact finishes_of_isFull h.after hfull
  | @pass cur next passed c d v results hdone _ hfull hfilters hstep _ ih =>
      cases rest with
      | nil => simp [show cur.isDone = true from h.faces] at hdone
      | cons row rest =>
          -- no row ahead leads to a record that was modified, so this one is as it was in the beginning
          have hvalue : c₀.view row.2 = some cur.value :=
            (h.after.others _ (h.apart row List.mem_cons_self)).symm.trans h.faces.1.value
          rw [subject_of_state hstate] at hfilters
          obtain ⟨rfl, haccepts⟩ := eq_of_allHold hpure hfilters
          have hmidway : q.IsMidway origin Γ c₀ done next c rest :=
            h.step hkeyOnly hsafe Nat.one_pos hstep
          have htaken : q.taken passed c₀ (row :: rest) = q.taken passed c₀ rest :=
            taken_cons_of_not_accepts hvalue haccepts.symm
          refine (ih hskip hmidway fun r hr other hother => ?_).pass hvalue haccepts.symm hfilters
          exact hsteady r (htaken ▸ hr) other (List.mem_cons_of_mem row hother)
  | @take cur next passed c c' d v m w results hdone _ hfull hfilters hmodifies hmap hstep _ ih =>
      cases rest with
      | nil => simp [show cur.isDone = true from h.faces] at hdone
      | cons row rest =>
          have hvalue : c₀.view row.2 = some cur.value :=
            (h.after.others _ (h.apart row List.mem_cons_self)).symm.trans h.faces.1.value
          rw [subject_of_state hstate] at hfilters
          obtain ⟨rfl, haccepts⟩ := eq_of_allHold hpure hfilters
          have htaken : q.taken passed c₀ (row :: rest) =
              (row.2, cur.value) :: q.taken (passed + 1) c₀ rest :=
            taken_cons_of_accepts hvalue haccepts.symm hfull
          obtain ⟨hadmits, hmidway⟩ := h.modifies hkeyOnly hsafe hrule hproper hgenerates hdates
            hmodifies hmap (fun v => hsteady _ (htaken ▸ List.mem_cons_self) row List.mem_cons_self rfl v) hstep
          have hw : q.outcome cur.value = .ok w := by rw [outcome, hmodifies.made, ok_bind, hmap]
          refine (ih (Nat.le_succ_of_le hskip) hmidway fun r hr other hother => ?_).take hvalue
            haccepts.symm hfull hfilters hadmits hw
          exact hsteady r (htaken ▸ List.mem_cons_of_mem _ hr) other (List.mem_cons_of_mem row hother)

end Walk
end Query
end RecordStore
