import RecordStore.Proofs.Collection.Duplicates
import RecordStore.Proofs.Engine.Histories
import RecordStore.Proofs.Engine.Reading

/-!
Collections as maps. However a run has come about, what a transaction finds and counts in a
collection is told by the map that the history of its contents builds; and a write, a deletion or a
clearing through a current handle does to that map what it should.
-/

namespace RecordStore

open Effect

/-! ### The key of a record as a query -/

theorem KeyRange.ofQuery_of_encodeKey {k : Value} {encoded : Bytes} (h : k.encodeKey = .ok encoded) :
    ofQuery k = .ok (some ⟨k, k, false, false, some encoded, some encoded⟩) := by
  have honly : only k = .ok ⟨k, k, false, false, some encoded, some encoded⟩ := by
    unfold only
    rw [h]
    rfl
  cases k with
  | null => cases h
  | keyRange range => cases h
  | _ =>
      simp only [ofQuery, honly]
      rfl

theorem KeyRange.covers_single {k : Value} {encoded key : Bytes} :
    covers (some ⟨k, k, false, false, some encoded, some encoded⟩) key = true ↔ key = encoded := by
  simp only [covers, Option.all_some, admits, Bool.false_and, Bool.or_false, Bool.and_eq_true,
    Bool.not_eq_true']
  constructor
  · rintro ⟨hlt, hgt⟩
    exact Bytes.isOrder.connected _ _ hlt hgt
  · rintro rfl
    exact ⟨Bytes.isOrder.irrefl _, Bytes.isOrder.irrefl _⟩

/-- The first in the range of one key is what is under the key. -/
theorem RecordMap.eq_of_isFirst_single {m : RecordMap} {k v w : Value} {encoded : Bytes}
    (h : m.IsFirst (some ⟨k, k, false, false, some encoded, some encoded⟩) v)
    (hw : m encoded = some w) : v = w := by
  rcases h with ⟨key, hkey, hv, _⟩ | ⟨hempty, _⟩
  · rw [KeyRange.covers_single.1 hkey.2, hw] at hv
    exact (Option.some.inj hv).symm
  · have hmem : encoded ∈ m.keysIn (some ⟨k, k, false, false, some encoded, some encoded⟩) :=
      ⟨by rw [hw]; rfl, KeyRange.covers_single.2 rfl⟩
    rw [hempty] at hmem
    exact hmem.elim

theorem RecordMap.put_eq {m : RecordMap} {path : Option KeyPath} {value k record v : Value}
    {encoded : Bytes} (hencode : k.encodeKey = .ok encoded) (hclone : value.clone = .ok record)
    (hwith : Collection.recordWith path record k = .ok v) :
    m.put path value k = Function.update m encoded (some v) := by
  rw [put, hencode, hclone]
  simp only [hwith]

namespace StoreRef

variable {e : Engine} {r : StoreRef} {s : Store}

/-! ### Calls to a draft -/

theorem write_of_draft (h : e.draft? r.transaction = some s)
    (hmode : (e.transaction r.transaction).mode ≠ .readonly) (value key : Value) (overwrite : Bool) :
    r.write value key overwrite e =
      ending ((s.contents.get r.name).write r.name r.keying value key overwrite).1
        (e.drafted r.transaction s (some (r.writing value key overwrite))) := by
  unfold write
  rw [bind_of_ok (Action.ensureWritable_of_draft h hmode)]
  exact change_of_draft h _

theorem delete_of_draft (h : e.draft? r.transaction = some s)
    (hmode : (e.transaction r.transaction).mode ≠ .readonly) {query : Value}
    {range : Option (KeyRange Value)} (hnull : query.isNull = false)
    (hrange : KeyRange.ofQuery query = .ok range) :
    r.delete query e = .ok () (e.drafted r.transaction s (some (r.name, .delete range))) := by
  unfold delete
  rw [bind_of_ok (Action.ensureWritable_of_draft h hmode),
    if_neg (by rw [hnull]; exact Bool.false_ne_true)]
  exact (bind_of_ok (conditions_of_range hrange e) _).trans (change_of_draft h _)

theorem clear_of_draft (h : e.draft? r.transaction = some s)
    (hmode : (e.transaction r.transaction).mode ≠ .readonly) :
    r.clear e = .ok () (e.drafted r.transaction s (some (r.name, .clear))) := by
  unfold clear
  rw [bind_of_ok (Action.ensureWritable_of_draft h hmode)]
  exact change_of_draft h _

end StoreRef

namespace Annals

variable {t : Annals} {r : StoreRef} {s : Store}

/-- The map that a handle stands for. -/
def map (t : Annals) (r : StoreRef) : RecordMap := (t.history (t.worker r.transaction)).map r.name

/-! ### Reading -/

theorem exists_read_run (ht : t.IsTrue) {tx : Nat} (hactive : (t.engine.transaction tx).isActive = true)
    (hopen : (t.engine.connection (t.worker tx)).isClosed = false) :
    ∃ s d, Action.read tx t.engine = .ok s d ∧ s.contents = (t.history (t.worker tx)).contents := by
  have hensured : Action.ensureActive tx t.engine = .ok (t.engine.transaction tx) t.engine := by
    rw [Action.ensureActive_run, if_pos hactive]
  have hstatement : Action.statement (t.engine.transaction tx) t.engine =
      .ok (t.engine.connection (t.worker tx)) t.engine := by
    rw [Action.statement_run]
    exact if_neg (Bool.eq_false_iff.1 hopen)
  unfold Action.read
  rw [bind_of_ok hensured, bind_of_ok hstatement]
  unfold history
  cases hw : (t.engine.connection (t.worker tx)).work with
  | idle => exact ⟨_, _, rfl, ht.stores _⟩
  | writing draft => exact ⟨_, _, rfl, ht.underWay _ draft (by rw [hw]; rfl)⟩
  | reading snapshot =>
      cases snapshot with
      | none => exact ⟨_, _, rfl, ht.stores _⟩
      | some s => exact ⟨_, _, rfl, ht.underWay _ s (by rw [hw]; rfl)⟩

theorem represents (h : t.IsRecorded Keying.IsTagFree) (r : StoreRef) :
    ((t.history (t.worker r.transaction)).contents.get r.name).Represents (t.map r) :=
  History.represents_map (h.isSuitable.history _) r.name

theorem exists_collection_run (ht : t.IsTrue)
    (hactive : (t.engine.transaction r.transaction).isActive = true)
    (hopen : (t.engine.connection (t.worker r.transaction)).isClosed = false) :
    ∃ d, r.collection t.engine =
      .ok ((t.history (t.worker r.transaction)).contents.get r.name) d := by
  obtain ⟨s, d, hread, hs⟩ := exists_read_run ht hactive hopen
  refine ⟨d, ?_⟩
  unfold StoreRef.collection
  rw [bind_of_ok hread, hs]
  rfl

/-- Queries through a handle find what the map has in their range: the value of the least key, or
null, and the number of keys. -/
structure Answers (t : Annals) (r : StoreRef) : Prop where
  get : ∀ query range, query.isNull = false → KeyRange.ofQuery query = .ok range →
    ∃ v d, r.get query t.engine = .ok v d ∧ (t.map r).IsFirst range v
  count : ∀ query range, KeyRange.ofQuery query = .ok range →
    ∃ d, r.count none query t.engine = .ok ((t.map r).keysIn range).ncard d
  finite : {key | (t.map r key).isSome = true}.Finite
  lookup : ∀ k encoded v, k.encodeKey = .ok encoded → t.map r encoded = some v →
    ∃ d, r.get k t.engine = .ok v d

theorem answers (h : t.IsRecorded Keying.IsTagFree)
    (hactive : (t.engine.transaction r.transaction).isActive = true)
    (hopen : (t.engine.connection (t.worker r.transaction)).isClosed = false) : t.Answers r := by
  have hrepresents := represents h r
  have hconsistent := hrepresents.sound.consistent
  obtain ⟨d, hcollection⟩ := exists_collection_run h.isTrue hactive hopen
  have hget (query : Value) (range : Option (KeyRange Value)) (hnull : query.isNull = false)
      (hrange : KeyRange.ofQuery query = .ok range) :
      ∃ v d, r.get query t.engine = .ok v d ∧ (t.map r).IsFirst range v := by
    obtain ⟨v, hv, hfirst⟩ := Collection.get_eq hconsistent range
    rw [hrepresents.view] at hfirst
    refine ⟨v, d, ?_, hfirst⟩
    rw [StoreRef.get_run hcollection hrange hnull, hv]
    rfl
  constructor
  case get => exact hget
  case count =>
    intro query range hrange
    refine ⟨d, ?_⟩
    rw [StoreRef.count_run hcollection hrange, ← hrepresents.view]
    exact congrArg (EStateM.Result.ok · d) (Collection.count_eq hconsistent range)
  case finite =>
    refine ((t.history (t.worker r.transaction)).contents.get r.name).records.map Prod.fst
      |>.toFinset.finite_toSet.subset fun key hkey => ?_
    rw [← hrepresents.view] at hkey
    obtain ⟨text, htext⟩ := (Collection.isSome_view_iff hconsistent).1 hkey
    rw [List.coe_toFinset]
    exact List.mem_map.2 ⟨_, htext, rfl⟩
  case lookup =>
    intro k encoded v hencode hv
    have hnull : k.isNull = false := by
      cases k with
      | null => cases hencode
      | _ => rfl
    obtain ⟨w, d', hrun, hfirst⟩ := hget k _ hnull (KeyRange.ofQuery_of_encodeKey hencode)
    rw [RecordMap.eq_of_isFirst_single hfirst hv] at hrun
    exact ⟨d', hrun⟩

/-! ### Writing -/

section Drafting

variable {c : EngineCall} {value key : Value} {overwrite : Bool}

theorem map_next_of_change {made : Keying → Prop} (h : t.IsRecorded made)
    (hc : c.through? = some r.transaction) (hdraft : t.engine.draft? r.transaction = some s)
    {change : Change}
    (hchange : c.change? (t.engine.transaction r.transaction).mode s.contents =
      some (r.name, change)) :
    (t.next c).map r = (t.map r).after r.name (s.contents.get r.name) change := by
  unfold map
  rw [history_next h hc hdraft, hchange]
  change History.map r.name ((r.name, change) :: _) = _
  rw [History.map, if_pos rfl, h.isTrue.contents hdraft]
  rfl

theorem map_next_of_no_change {made : Keying → Prop} (h : t.IsRecorded made)
    (hc : c.through? = some r.transaction) (hdraft : t.engine.draft? r.transaction = some s)
    (hchange : c.change? (t.engine.transaction r.transaction).mode s.contents = none) :
    (t.next c).map r = t.map r := by
  unfold map
  rw [history_next h hc hdraft, hchange]
  rfl

/-- A write puts the clone of its value into the map, together with the key if the key was to be
written into it, under the key that it yields; there a look-up then finds it. A write that fails
leaves the map. -/
structure Writes (t : Annals) (r : StoreRef) (value : Value) (c : EngineCall)
    (a : Action Value) : Prop where
  ok : ∀ k d, a t.engine = .ok k d → ∃ encoded record v, k.encodeKey = .ok encoded ∧
    value.clone = .ok record ∧ Collection.recordWith r.keying.keyPath record k = .ok v ∧
      (t.next c).map r = Function.update (t.map r) encoded (some v) ∧
        ∃ d', r.get k (t.next c).engine = .ok v d'
  error : ∀ f d, a t.engine = .error f d → (t.next c).map r = t.map r

theorem writes (h : t.IsRecorded Keying.IsTagFree)
    (hdraft : t.engine.draft? r.transaction = some s) (hallows : Allows Keying.IsTagFree t c)
    (hc : c.through? = some r.transaction)
    (hchange : c.change? (t.engine.transaction r.transaction).mode s.contents =
      some (r.writing value key overwrite)) : t.Writes r value c (r.write value key overwrite) := by
  have hrun := StoreRef.write_of_draft hdraft (h.isOrderly.mode_ne_readonly hdraft) value key overwrite
  have hmap := map_next_of_change h hc hdraft hchange
  constructor
  case ok =>
    intro k d hok
    rw [hrun] at hok
    have hresult := (ending_eq_ok_iff.1 hok).1
    obtain ⟨encoded, record, v, hencode, hclone, hwith⟩ :=
      Collection.exists_record_of_write (Prod.ext hresult rfl)
    have hput : (t.next c).map r = Function.update (t.map r) encoded (some v) := by
      rw [hmap, RecordMap.after, hresult]
      exact RecordMap.put_eq hencode hclone hwith
    have hwriting := Engine.draft?_eq_some_iff.1 (draft?_next h hc hdraft)
    refine ⟨encoded, record, v, hencode, hclone, hwith, hput, ?_⟩
    refine (answers (isRecorded_next h hallows) hwriting.active hwriting.isOpen).lookup
      k encoded v hencode ?_
    rw [hput, Function.update_self]
  case error =>
    intro f d herror
    rw [hrun] at herror
    rw [hmap, RecordMap.after, (ending_eq_error_iff.1 herror).1]

end Drafting

/-- Calls through a handle that can write do to the map what they should. -/
structure Acts (t : Annals) (r : StoreRef) (c : Collection) : Prop where
  add : ∀ value key, t.Writes r value (.add r value key) (r.add value key)
  put : ∀ value key, t.Writes r value (.put r value key) (r.put value key)
  duplicate : ∀ value key k name,
    (∃ d, r.add value key t.engine = .error (.store (.duplicateKey k name)) d) ↔
      name = r.name ∧ c.keyFor? r.name r.keying value key = some k ∧
        ∃ encoded, k.encodeKey = .ok encoded ∧ (t.map r encoded).isSome = true
  delete : ∀ query range, query.isNull = false → KeyRange.ofQuery query = .ok range →
    (∃ d, r.delete query t.engine = .ok () d) ∧
      (t.next (.delete r query)).map r = (t.map r).erase range
  refused : ∀ query f d, r.delete query t.engine = .error f d →
    (t.next (.delete r query)).map r = t.map r
  clear : (∃ d, r.clear t.engine = .ok () d) ∧ (t.next (.clear r)).map r = fun _ => none

theorem acts (h : t.IsRecorded Keying.IsTagFree)
    (hdraft : t.engine.draft? r.transaction = some s) (hcurrent : r.IsCurrentIn s.contents) :
    t.Acts r (s.contents.get r.name) := by
  have hmode := h.isOrderly.mode_ne_readonly hdraft
  have hrepresents := represents h r
  rw [← h.isTrue.contents hdraft] at hrepresents
  have hallows {value : Value} {c : EngineCall} (hc : c.record? = some (r, value)) :
      Allows Keying.IsTagFree t c := by
    refine allows_of_isCurrentIn hc fun s' hs' => ?_
    cases hdraft.symm.trans hs'
    exact hcurrent
  constructor
  case add =>
    intro value key
    exact writes h hdraft (hallows rfl) rfl rfl
  case put =>
    intro value key
    exact writes h hdraft (hallows rfl) rfl rfl
  case duplicate =>
    intro value key k name
    have hrun := StoreRef.write_of_draft hdraft hmode value key false
    change (∃ d, r.write value key false t.engine = _) ↔ _
    rw [hrun, ← hrepresents.view, ← Collection.add_duplicate_iff hrepresents.sound.consistent]
    exact ⟨fun ⟨_, hd⟩ => (ending_eq_error_iff.1 hd).1, fun hd => ⟨_, ending_eq_error_iff.2 ⟨hd, rfl⟩⟩⟩
  case delete =>
    intro query range hnull hrange
    refine ⟨⟨_, StoreRef.delete_of_draft hdraft hmode hnull hrange⟩, ?_⟩
    refine map_next_of_change h rfl hdraft (?_ : EngineCall.change? _ _ (.delete r query) =
      some (r.name, .delete range))
    rw [EngineCall.change?, StoreRef.deletion?,
      if_neg (by rw [hnull]; exact Bool.false_ne_true), hrange]
  case refused =>
    intro query f d herror
    refine map_next_of_no_change h (c := .delete r query) rfl hdraft ?_
    rw [EngineCall.change?, StoreRef.deletion?]
    split
    · rfl
    · next hnull =>
      rw [Bool.not_eq_true] at hnull
      split
      · rfl
      · next range hrange =>
        rw [StoreRef.delete_of_draft hdraft hmode hnull hrange] at herror
        cases herror
  case clear =>
    refine ⟨⟨_, StoreRef.clear_of_draft hdraft hmode⟩, ?_⟩
    exact map_next_of_change h rfl hdraft
      (rfl : EngineCall.change? _ _ (.clear r) = some (r.name, .clear))

/-- In every run in which whoever writes has a current handle, collections are maps: an active
transaction finds in a collection what its map has, and through a current handle a transaction with a
draft does to the map what it should. -/
theorem refinesMap_of_isReached (h : t.IsReached Keying.IsTagFree) (r : StoreRef) :
    ((t.engine.transaction r.transaction).isActive = true →
      (t.engine.connection (t.worker r.transaction)).isClosed = false → t.Answers r) ∧
    ∀ s, t.engine.draft? r.transaction = some s → r.IsCurrentIn s.contents →
      t.Acts r (s.contents.get r.name) :=
  ⟨answers (isRecorded_of_isReached h), fun _ => acts (isRecorded_of_isReached h)⟩

/-! ### A collection with one record -/

/-- A collection as the first transaction after the upgrade that makes it obtains it. -/
def notes : StoreRef := ⟨1, "notes", ⟨none, true⟩⟩

/-- A transaction that can write to a collection. -/
def notesBegun : Annals :=
  initial
    |>.next (.beginOpen "path" (.int 1) none)
    |>.next (.createCollection 0 (.text "notes") .null (.bool true))
    |>.next (.conclude (.upgrade 0 0 0 1) (.ok ()))
    |>.next (.openTransaction 0 (.text "notes") (.text "readwrite"))
    |>.next (.begin 1)

theorem isReached_notesBegun {made : Keying → Prop} (hmade : made notes.keying) :
    notesBegun.IsReached made := by
  unfold notesBegun
  refine .next (.next (.next (.next (.next .start (allows_of_record nofun nofun)) ⟨nofun, ?_⟩)
    (allows_of_record nofun nofun)) (allows_of_record nofun nofun)) (allows_of_record nofun nofun)
  rintro _ _ _ _ _ ⟨⟩ ⟨⟩
  exact hmade

theorem isCurrentIn_notesBegun :
    ∀ s ∈ notesBegun.engine.draft? notes.transaction, notes.IsCurrentIn s.contents := by
  decide +kernel

/-- After a record was added, the collection is a map with one key. -/
theorem refinesMap_notesBegun :
    let t := notesBegun.next (.add notes (.text "first") .null)
    t.IsReached Keying.IsTagFree ∧ t.Answers notes ∧ ((t.map notes).keysIn none).ncard = 1 ∧
      ∃ s, t.engine.draft? notes.transaction = some s ∧ t.Acts notes (s.contents.get notes.name) := by
  intro t
  have hreached : t.IsReached Keying.IsTagFree :=
    .next (isReached_notesBegun nofun) (allows_of_isCurrentIn rfl isCurrentIn_notesBegun)
  have hactive : (t.engine.transaction notes.transaction).isActive = true := by decide +kernel
  have hopen : (t.engine.connection (t.worker notes.transaction)).isClosed = false := by
    decide +kernel
  have hcurrent : ∀ s ∈ t.engine.draft? notes.transaction, notes.IsCurrentIn s.contents := by
    decide +kernel
  have hsome : (t.engine.draft? notes.transaction).isSome = true := by decide +kernel
  obtain ⟨s, hs⟩ := Option.isSome_iff_exists.1 hsome
  obtain ⟨hanswers, hacts⟩ := refinesMap_of_isReached hreached notes
  have hanswered := hanswers hactive hopen
  refine ⟨hreached, hanswered, ?_, s, hs, hacts s hs (hcurrent s hs)⟩
  have hone : (notes.count none .null).result? t.engine = some 1 := by decide +kernel
  obtain ⟨d, hcount⟩ := hanswered.count .null none rfl
  exact Option.some.inj ((result?_of_ok hcount).symm.trans hone)

end Annals
end RecordStore
