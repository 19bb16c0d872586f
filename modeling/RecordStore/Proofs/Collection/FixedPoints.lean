import RecordStore.Proofs.Collection.HandedBack
import RecordStore.Proofs.Collection.Map

/-!
What is stored is a fixed point of storing. Nothing in a value that came back from storage has a form that
is only written, so the value comes back as it is. A record that is read and written back under its own key
is therefore what was there before, and the same index keys are called for.
-/

namespace RecordStore

open Document (IsTag)

/-! ### Parts of values -/

namespace Value

/-- A value is within another one if it is that one, or within an item, a name or a member of it. -/
inductive IsWithin (p : Value) : Value → Prop where
  | self : IsWithin p p
  | item {v : Value} {items : List Value} : v ∈ items → IsWithin p v → IsWithin p (.list items)
  | component {v : Value} {items : List Value} : v ∈ items → IsWithin p v → IsWithin p (.tuple items)
  | element {v : Value} {items : List Value} : v ∈ items → IsWithin p v → IsWithin p (.set items)
  | name {m : Value × Value} {members : List (Value × Value)} :
      m ∈ members → IsWithin p m.1 → IsWithin p (.dict members)
  | member {m : Value × Value} {members : List (Value × Value)} :
      m ∈ members → IsWithin p m.2 → IsWithin p (.dict members)

/-- A value that is not in a form that storage only writes: it is no tuple, and no mapping with the name of
a tag as its only member. -/
def IsUntagged (p : Value) : Prop :=
  (∀ items, p ≠ .tuple items) ∧ ∀ name v, p = .dict [(.text name, v)] → ¬IsTag name

variable {p v w : Value}

theorem MembersStored.of_mem {members : List (Value × Value)} {m : Value × Value}
    (h : MembersStored members) (hm : m ∈ members) : m.1.IsStored ∧ m.2.IsStored := by
  induction members with
  | nil => cases hm
  | cons first rest ih =>
      obtain ⟨k, v⟩ := first
      cases k with
      | text s =>
          rcases List.mem_cons.1 hm with rfl | hm
          · exact ⟨trivial, h.1⟩
          · exact ih h.2.2 hm
      | _ => exact h.elim

/-- Whatever is within a stored value is stored as well. -/
theorem IsWithin.isStored (hp : p.IsWithin w) (h : w.IsStored) : p.IsStored := by
  induction hp with
  | self => exact h
  | item hv _ ih => exact ih (allStored_iff.1 h _ hv)
  | component => exact h.elim
  | element hv _ ih => exact ih (allStored_iff.1 h.1 _ hv)
  | name hm _ ih => exact ih (h.1.of_mem hm).1
  | member hm _ ih => exact ih (h.1.of_mem hm).2

theorem IsStored.isUntagged (h : p.IsStored) : p.IsUntagged := by
  constructor
  · rintro items rfl
    exact h
  · rintro name v rfl
    exact h.2 name v rfl

end Value

namespace Collection

variable {c c' d : Collection} {name : String} {keying : Keying} {path : KeyPath}
  {record key k v w : Value} {b : Bytes} {flawed : String → Prop}

/-! ### Indexes of the same records -/

/-- What is called for is told by the records that are read. -/
theorem mem_calledFor_iff (h : c.IsConsistent flawed) {spec : IndexSpec} {e : Entry} :
    e ∈ spec.calledFor c.records ↔
      ∃ v keys, c.view e.2 = some v ∧ spec.keysFor v = .ok keys ∧ e.1 ∈ keys := by
  constructor
  · rintro ⟨text, v, keys, hmem, hv, hkeys⟩
    exact ⟨v, keys, (view_eq_some_iff h).2 ⟨text, hmem, hv⟩, hkeys⟩
  · rintro ⟨v, keys, hview, hkeys⟩
    obtain ⟨text, hmem, hv⟩ := (view_eq_some_iff h).1 hview
    exact ⟨text, v, keys, hmem, hv, hkeys⟩

/-- Two indexes of one name that agree with the same records are one. -/
theorem eq_of_indexes {i j : Index} (hc : c.IsConsistent flawed) (hd : d.IsConsistent flawed)
    (hview : d.view = c.view) (hi : i.Indexes c.records) (hj : j.Indexes d.records)
    (hname : j.name = i.name) (hspec : j.spec = i.spec) : j = i := by
  have hentries : j.entries = i.entries := by
    refine OrderedRows.eq_of_mem_iff Entry.isOrder hj.ascending hi.ascending fun e => ?_
    rw [hj.mem_iff, hi.mem_iff, hspec, mem_calledFor_iff hc, mem_calledFor_iff hd, hview]
  obtain ⟨name, spec, entries⟩ := i
  obtain ⟨_, _, _⟩ := j
  cases hname
  cases hspec
  cases hentries
  rfl

/-- A collection has the same records as another one, and the same entries in every index that is not
flawed. -/
structure KeepsContents (c : Collection) (flawed : String → Prop) (d : Collection) : Prop where
  view : d.view = c.view
  indexes : ∃ f : Index → Index, d.indexes = c.indexes.map f ∧ ∀ i ∈ c.indexes, ¬flawed i.name → f i = i

theorem SameData.keepsContents (h : SameData c d) : c.KeepsContents flawed d where
  view := view_congr h.records
  indexes := ⟨id, by rw [h.indexes, List.map_id], fun _ _ _ => rfl⟩

/-- A planned write of what is there already keeps the contents. -/
theorem keepsContents_carryOut {p : Plan} {overwrite : Bool} (hc : c.IsConsistent flawed)
    (hstored : v.IsStored) (hp : c.plan name k v overwrite = .ok p) (hview : c.view p.key = some v) :
    c.KeepsContents flawed (c.carryOut p) := by
  obtain ⟨_, _, _, _, hdumps⟩ := plan_spec hp
  have hd := isConsistent_carryOut hc hstored hp
  have hsame : (c.carryOut p).view = c.view := by
    rw [view_carryOut (Value.loads_of_dumps hstored hdumps), ← hview, Function.update_eq_self]
  refine ⟨hsame, p.updateIndex, rfl, fun i hi hn => ?_⟩
  obtain ⟨hname, hspec⟩ := name_spec_updateIndex p i
  refine eq_of_indexes hc hd hsame (hc.indexed i hi hn) ?_ hname hspec
  exact hd.indexed _ (List.mem_map_of_mem hi) (hname ▸ hn)

/-! ### Records that are written back under their own keys -/

/-- What a writer hands in as the key of a record that is under a key: nothing if it is in the record. -/
def givenFor (keying : Keying) (k : Value) : Value := if keying.keyPath.isSome then .null else k

/-- A record is read under a key, which the key path finds in it if keys are inside of the records. -/
structure ReadsUnder (c : Collection) (keying : Keying) (k : Value) (b : Bytes) (record : Value) : Prop where
  stored : c.view b = some record
  encodes : k.encodeKey = .ok b
  inside : ∀ path ∈ keying.keyPath, path.find? record = some k

/-- A key that is given or found is used as it is. -/
theorem resolveKey_givenFor (hvalid : k.isValidKey = true) (hk : k.isNull = false)
    (hinside : ∀ path ∈ keying.keyPath, path.find? record = some k) (c : Collection) (name : String) :
    c.resolveKey name keying record (givenFor keying k) = c.useKey keying k record := by
  unfold resolveKey givenFor
  cases hpath : keying.keyPath with
  | none => simp [hk, hvalid]
  | some path => simp [Value.isNull, hinside path hpath, hvalid]

/-- A record that was read may be written back: whatever comes of it, the contents stay. -/
theorem keepsContents_write (hc : c.IsConsistent flawed) (h : c.ReadsUnder keying k b record)
    (name : String) : c.KeepsContents flawed (c.write name keying record (givenFor keying k) true).2 := by
  obtain ⟨_, _, hloads⟩ := (view_eq_some_iff hc).1 h.stored
  have hstored := Value.isStored_of_loads hloads
  cases hw : c.write name keying record (givenFor keying k) true with
  | mk result d =>
      rcases write_cases hw with
        ⟨_, _, hsame⟩ | ⟨found, clone, v, c', p, hclone, _, hsame, hresolve, hplan, rfl⟩
      · exact hsame.keepsContents
      · -- the record comes back as it is, and gets the key that it has
        cases (Value.clone_of_isStored hstored).symm.trans hclone
        rw [resolveKey_givenFor (Value.isValidKey_of_encodeKey h.encodes) (isNull_of_encodeKey h.encodes)
          h.inside] at hresolve
        obtain ⟨rfl, rfl⟩ := eq_of_useKey hresolve
        cases h.encodes.symm.trans (plan_spec hplan).1
        have hview : c'.view p.key = some v := by rw [view_congr hsame.records, h.stored]
        have hkeeps := keepsContents_carryOut (hc.congr hsame.records hsame.indexes) hstored hplan hview
        exact ⟨hkeeps.view.trans (view_congr hsame.records), hsame.indexes ▸ hkeeps.indexes⟩

/-! ### The same write once more -/

/-- A generator that was moved up to a key is not moved again for it. -/
theorem raiseGenerator_again (h : c.raiseGenerator keying key = (.ok (), c')) (hd : d.header = c'.header) :
    d.raiseGenerator keying key = (.ok (), d) := by
  unfold raiseGenerator at h ⊢
  split at h
  · next hauto => rw [if_pos hauto]
  · next hauto =>
    rw [if_neg hauto]
    cases hfloor : generatorFloor key with
    | error f =>
        rw [hfloor] at h
        cases h
    | ok floor =>
        rw [hfloor] at h
        cases floor with
        | none => rfl
        | some n =>
            dsimp only at h ⊢
            split at h
            · cases h
            · next hlow =>
              cases h
              rw [if_neg hlow]
              have hkept : d.header.map (fun h => { h with lastKey := max h.lastKey n.toNat }) = d.header := by
                rw [hd, Option.map_map]
                refine congrArg (Option.map · c.header) (funext fun h => ?_)
                rw [Function.comp_apply, max_assoc, max_self]
              rw [hkept]

/-- A generator has been moved up to the key that it generated. -/
theorem raiseGenerator_of_generate {n : Nat} (h : c.generate = (.ok n, c')) (hd : d.header = c'.header) :
    d.raiseGenerator keying (.int n) = (.ok (), d) := by
  have hle := le_of_generate h
  have hfloor : generatorFloor (.int n) = .ok (some n) := by
    rw [generatorFloor, min_eq_left (by exact_mod_cast hle)]
  have hlow : ¬(n : Int) < -(2 ^ 63) := by omega
  have hheader : d.header.map (fun h => { h with lastKey := max h.lastKey n }) = d.header := by
    unfold generate at h
    split at h
    · cases h
    · split at h
      · cases h
      · cases h
        rw [hd, Option.map_some, max_self]
  unfold raiseGenerator
  split
  · rfl
  · simp only [hfloor, if_neg hlow, Int.toNat_natCast, hheader]

/-- A key that a record got is one that can be used, or it was generated. -/
theorem use_of_resolveKey (h : c.resolveKey name keying record key = (.ok (k, v), c')) :
    k.isValidKey = true ∧ c.useKey keying k record = (.ok (k, v), c') ∨
      ∃ path, c.useGenerated path record = (.ok (k, v), c') := by
  unfold resolveKey at h
  split at h
  · split at h
    · cases h
    split at h
    · split at h
      · exact .inr ⟨_, h⟩
      · cases h
    · split at h
      · next hvalid =>
        obtain ⟨rfl, -⟩ := eq_of_useKey h
        exact .inl ⟨hvalid, h⟩
      · cases h
  · split at h
    · split at h
      · exact .inr ⟨_, h⟩
      · cases h
    · split at h
      · next hvalid =>
        obtain ⟨rfl, -⟩ := eq_of_useKey h
        exact .inl ⟨hvalid, h⟩
      · cases h

/-- After a record got its key, the key is one that the generator need not be moved for. -/
theorem raised_of_resolveKey (h : c.resolveKey name keying record key = (.ok (k, v), c'))
    (hd : d.header = c'.header) : k.isValidKey = true ∧ d.raiseGenerator keying k = (.ok (), d) := by
  rcases use_of_resolveKey h with ⟨hvalid, h⟩ | ⟨path, h⟩
  · refine ⟨hvalid, ?_⟩
    unfold useKey at h
    split at h
    · cases h
    · next hraise =>
      cases h
      exact raiseGenerator_again hraise hd
  · unfold useGenerated at h
    split at h
    · cases h
    · next hgenerate =>
      split at h
      · split at h
        · cases h
        · cases h
          exact ⟨rfl, raiseGenerator_of_generate hgenerate hd⟩
      · cases h
        exact ⟨rfl, raiseGenerator_of_generate hgenerate hd⟩

/-- To carry out a plan for the text that is there already leaves the collection as it is. -/
theorem carryOut_eq_self {p : Plan} {overwrite : Bool} (hc : c.IsConsistent fun _ => False)
    (hstored : v.IsStored) (hp : c.plan name k v overwrite = .ok p) (htext : c.text? p.key = some p.text) :
    c.carryOut p = c := by
  obtain ⟨_, _, _, _, hdumps⟩ := plan_spec hp
  have hview : c.view p.key = some v := by
    rw [view, htext, Option.bind_some, Value.loads_of_dumps hstored hdumps]
    rfl
  obtain ⟨f, hf, hsame⟩ := (keepsContents_carryOut hc hstored hp hview).indexes
  have hindexes : (c.carryOut p).indexes = c.indexes := by
    rw [hf, List.map_congr_left fun i hi => hsame i hi id, List.map_id']
  have hrecords : (c.carryOut p).records = c.records :=
    OrderedRows.insert_of_lookup Bytes.isOrder hc.ascending htext
  calc c.carryOut p = ⟨c.header, (c.carryOut p).indexes, (c.carryOut p).records⟩ := rfl
    _ = c := by rw [hindexes, hrecords]

/-- After a record was written under a key, it is read under that key, and to write back what is read does
nothing. -/
theorem exists_readsUnder_of_write {overwrite : Bool} (hc : c.IsConsistent fun _ => False)
    (htagFree : ∀ path ∈ keying.keyPath, path.IsTagFree) (hgenerates : keying.GeneratesSingly)
    (h : c.write name keying v key overwrite = (.ok k, d)) : ∃ b record,
      d.ReadsUnder keying k b record ∧ d.write name keying record (givenFor keying k) true = (.ok k, d) := by
  have hd := isConsistent_write hc htagFree h
  rcases write_cases h with ⟨_, hf, _⟩ | ⟨found, record, v, c', p, hclone, hk, hsame, hresolve, hplan, rfl⟩
  · cases hf
  cases hk
  obtain ⟨hstored, _⟩ := isStored_of_resolveKey htagFree (Value.isStored_of_clone hclone) hresolve
  obtain ⟨hencode, _, _, _, hdumps⟩ := plan_spec hplan
  have hinside : ∀ path ∈ keying.keyPath, path.find? v = some k :=
    fun path hpath => find?_of_resolveKey hpath hgenerates hresolve
  obtain ⟨hvalid, hraise⟩ := raised_of_resolveKey (d := c'.carryOut p) hresolve rfl
  -- what is read is the record that was planned, and the second plan is the first one
  refine ⟨p.key, v, ⟨?_, hencode, hinside⟩, ?_⟩
  · rw [view_carryOut (Value.loads_of_dumps hstored hdumps), Function.update_self]
  · obtain ⟨q, hq, hqkey, hqtext⟩ := exists_plan_again hplan (d := c'.carryOut p) rfl
    have htext : (c'.carryOut p).text? q.key = some q.text := by
      rw [hqkey, hqtext]
      exact OrderedRows.lookup_insert_self Bytes.isOrder p.key p.text c'.records
    unfold write
    rw [Value.clone_of_isStored hstored]
    dsimp only
    rw [resolveKey_givenFor hvalid (isNull_of_encodeKey hencode) hinside, useKey, hraise]
    dsimp only
    rw [hq]
    dsimp only
    rw [carryOut_eq_self hd hstored hq htext]

end Collection

/-! ### Fixed points -/

/-- What is stored is a fixed point: it has no part in a form that is only written, it comes back as it is,
and to write back a record that was read changes nothing. Right after the record was written, not even its
text and the generator of keys change. -/
theorem Value.is_fixed_point_of_clone {v w : Value} (h : v.clone = .ok w) :
    (∀ p, IsWithin p w → p.IsUntagged) ∧ w.clone = .ok w ∧
    (∀ (c : Collection) (flawed : String → Prop) (name : String) (keying : Keying) (k : Value) (b : Bytes)
      (record : Value), c.IsConsistent flawed → c.ReadsUnder keying k b record →
        c.KeepsContents flawed (c.write name keying record (Collection.givenFor keying k) true).2) ∧
    ∀ (c d : Collection) (name : String) (keying : Keying) (key k : Value) (overwrite : Bool),
      (c.IsConsistent fun _ => False) → (∀ path ∈ keying.keyPath, path.IsTagFree) →
        keying.GeneratesSingly → c.write name keying v key overwrite = (.ok k, d) →
          ∃ b record, d.ReadsUnder keying k b record ∧
            d.write name keying record (Collection.givenFor keying k) true = (.ok k, d) := by
  have hstored := isStored_of_clone h
  refine ⟨fun p hp => (hp.isStored hstored).isUntagged, clone_of_isStored hstored, ?_, ?_⟩
  · intro c flawed name keying k b record hc hreads
    exact Collection.keepsContents_write hc hreads name
  · intro c d name keying key k overwrite hc htagFree hgenerates hwrite
    exact Collection.exists_readsUnder_of_write hc htagFree hgenerates hwrite

/-- A record with a mapping that takes the form of a set. -/
def memo : Value :=
  .dict [(.text "title", .text "fair"), (.text "marks", .dict [(.text "$set", .list [.null, .null])])]

/-- The record as it is kept, with the set. -/
def memoKept : Value := .dict [(.text "title", .text "fair"), (.text "marks", .set [.null])]

theorem clone_memo : memo.clone = .ok memoKept := by
  have hlist : (Value.list [.null, .null]).ReadsAs (.list [.null, .null]) :=
    Document.Reader.exists_reads ⟨trivial, trivial, trivial⟩
  have hclose : Document.close [("$set", .list [.null, .null])] = .ok (.set [.null]) := by
    have hhashable : [Value.null, .null].findSome? Value.unhashable? = none := rfl
    change Document.setOfItems [.null, .null] = _
    simp [Document.setOfItems, hhashable, Value.distinctBy, Document.sameElement, Value.equals,
      Document.sortByLiteral]
  have hset : (Value.dict [(.text "$set", .list [.null, .null])]).ReadsAs (.set [.null]) := by
    obtain ⟨ms, hms, hfields⟩ := Document.Reader.forall₂_memberReadsAs_iff.1
      (List.Forall₂.cons (show Document.MemberReadsAs (.text "$set", _) ("$set", _) from ⟨rfl, hlist⟩) .nil)
    exact ⟨.object ms, by rw [Document.encode, hms, map_ok], Document.Reader.reads_of_close hfields hclose⟩
  refine Value.clone_dict_iff.2 ⟨[("title", .text "fair"), ("marks", .set [.null])], ?_, rfl⟩
  exact .cons ⟨rfl, Document.Reader.exists_reads trivial⟩ (.cons ⟨rfl, hset⟩ .nil)

/-- The record is stored in an empty collection, read and written back. -/
theorem is_fixed_point_of_clone_memo : ∃ b d record,
    Collection.empty.write "memos" ⟨none, false⟩ memo (.text "fair") true = (.ok (.text "fair"), d) ∧
      d.ReadsUnder ⟨none, false⟩ (.text "fair") b record ∧
      d.write "memos" ⟨none, false⟩ record (.text "fair") true = (.ok (.text "fair"), d) := by
  obtain ⟨_, _, _, hagain⟩ := Value.is_fixed_point_of_clone clone_memo
  obtain ⟨d, hdocument, _⟩ := Document.Reader.exists_reads (Value.isStored_of_clone clone_memo)
  have hwrite : ∃ d, Collection.empty.write "memos" ⟨none, false⟩ memo (.text "fair") true =
      (.ok (.text "fair"), d) := by
    have hplan : ∃ p, Collection.empty.plan "memos" (.text "fair") memoKept true = .ok p := by
      rw [Collection.plan, Value.dumps_of_encode hdocument]
      exact ⟨_, rfl⟩
    obtain ⟨p, hplan⟩ := hplan
    have hresolve : Collection.empty.resolveKey "memos" ⟨none, false⟩ memoKept (.text "fair") =
        (.ok (.text "fair", memoKept), Collection.empty) := rfl
    refine ⟨Collection.empty.carryOut p, ?_⟩
    simp only [Collection.write, clone_memo, hresolve, hplan]
  obtain ⟨d, hwrite⟩ := hwrite
  obtain ⟨b, record, hreads, hsame⟩ := hagain _ _ _ _ _ _ _ Collection.isConsistent_empty
    (by rintro _ ⟨⟩) (by rintro ⟨⟩) hwrite
  exact ⟨b, d, record, hwrite, hreads, hsame⟩

end RecordStore
