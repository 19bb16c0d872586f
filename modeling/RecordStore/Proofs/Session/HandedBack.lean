import RecordStore.Proofs.Collection.HandedBack
import RecordStore.Proofs.Session.Batches
import RecordStore.Proofs.Session.Locality

/-!
Keys that are handed back. A record that a session adds to a collection whose keys are in a field is yielded
with its key in that field. Then the key gets the record as it was yielded, and to update it changes nothing.
Where a key path has dots, the key that is handed back is not where the collection looks for it.
-/

namespace RecordStore

open Effect

/-- A key that is asked for stands for itself. -/
theorem Session.resolve_of_encodeKey {key : Value} {encoded : Bytes} (h : key.encodeKey = .ok encoded) :
    resolve key = .ok key := by
  cases key with
  | dict members => cases h
  | descriptor d => cases h
  | _ => rfl

/-! ### In the engine -/

namespace Action

variable {e d : Engine} {db : Nat} {name : String} {records : List Record} {overwrite : Bool}

/-- A batch on an engine at rest leaves its connection as it was. -/
theorem leaves_connection_of_writeRecords (he : e.IsAtRest) {collection : Value}
    {r : Except Failure (List Value × String)} (h : writeRecords db collection records overwrite e = ending r d) :
    d.IsAtRest ∧ d.connection db = e.connection db :=
  leaves_connection_of_onCollection (fun r => isUniform_writeEach_bind r overwrite records) he h

/-- A batch that succeeds on an engine at rest could be begun. -/
theorem isFree_of_writeRecords (he : e.IsAtRest) {x : List Value × String}
    (h : writeRecords db (.text name) records overwrite e = .ok x d) : IsFree e db name := by
  obtain ⟨tx, _, hopened, _⟩ := exists_of_bind h
  obtain ⟨hopen, hknown⟩ := passed_of_openTransaction (.inr rfl) hopened
  exact ⟨hopen, he.idle db, he.hasOtherWriter_eq_false db _, hknown⟩

/-- It can be begun wherever an engine at rest has the same connection. -/
theorem IsFree.congr (h : IsFree e db name) (hd : d.IsAtRest)
    (hconnection : d.connection db = e.connection db) : IsFree d db name where
  isOpen := hconnection ▸ h.isOpen
  isIdle := hd.idle db
  noWriter := hd.hasOtherWriter_eq_false db _
  known := hconnection ▸ h.known

/-- What is stored under a key is read by it. -/
theorem exists_get_run (hfree : IsFree e db name) {header : Header} {key record : Value} {encoded : Bytes}
    (hheader : ((e.store (e.connection db).path).contents.get name).header = some header)
    (hencode : key.encodeKey = .ok encoded)
    (hview : ((e.store (e.connection db).path).contents.get name).view encoded = some record) :
    ∃ d, onCollection db (.text name) .readonly (fun r => r.get key) e = .ok record d := by
  obtain ⟨tx, b, hopened, hrun⟩ :=
    exists_opened_of_idle (.inl rfl) hfree.isOpen hfree.isIdle (.inl rfl) hfree.known hheader
  have hget := StoreRef.get_run hopened.collection (KeyRange.ofQuery_of_encodeKey hencode)
    (Collection.isNull_of_encodeKey hencode)
  rw [Collection.get_of_view hview] at hget
  have hconclude := (bind_of_ok (attempt_of_ending hget) (conclude tx)).trans (conclude_ok_run hopened.work _)
  exact ⟨_, (hrun fun _ r => r.get key).trans hconclude⟩

end Action

/-! ### On sessions -/

namespace Session

variable {s : Session} {h h' : Hub} {collection key record : Value} {args : List Value} {overwrite : Bool}
  {name field : String} {header : Header} {members : List (Value × Value)} {encoded : Bytes}

/-- What a batch does whose turn comes at once. -/
theorem write_run (hopen : h.isClosed s.connection = false) {r : Except Failure (List Value × String)}
    {e : Engine} (haction : Action.writeRecords (h.connection s.connection).db collection
      (Record.ofArguments args) overwrite h.engine = ending r e) :
    (s.write collection args overwrite).run h =
      ending ((r.mapError Failure.outward).map fun (keys, field) => .list
        (Batch.answered overwrite field keys ((Record.ofArguments args).map Record.value)))
      (Hub.noted { h with engine := e } (h.connection s.connection) r) := by
  rw [write_eq, Operation.andThen_run]
  have hcall := call_run hopen (fun records db => Action.writeRecords db collection records overwrite) haction
  cases r with
  | error f => exact bind_of_error hcall _
  | ok x => exact bind_of_ok hcall _

/-- What a session adds it has added in the engine, and nothing else. -/
theorem exists_writeRecords_of_write_run {answer : Value}
    (hrun : (s.write collection args overwrite).run h = .ok answer h') : h.isClosed s.connection = false ∧
      ∃ keys field e, Action.writeRecords (h.connection s.connection).db collection
        (Record.ofArguments args) overwrite h.engine = .ok (keys, field) e ∧ h' = { h with engine := e } ∧
      answer = .list (Batch.answered overwrite field keys ((Record.ofArguments args).map Record.value)) := by
  cases hclosed : h.isClosed s.connection with
  | true => cases (bind_of_error (write_of_error (writeObjects_of_closed hclosed _)) _).symm.trans hrun
  | false =>
      obtain ⟨r, haction⟩ := exists_ending (Action.writeRecords (h.connection s.connection).db collection
        (Record.ofArguments args) overwrite) h.engine
      have hends : Except.map _ (r.mapError Failure.outward) = .ok answer ∧ _ = h' :=
        ending_inj ((write_run hclosed haction).symm.trans hrun)
      cases r with
      | error f => cases hends.1
      | ok x =>
          cases hends.1
          exact ⟨rfl, _, _, _, haction, hends.2.symm, rfl⟩

/-- A session that can begin a batch for a collection on a hub where nothing is under way. -/
structure IsReadyFor (s : Session) (h : Hub) (name : String) : Prop where
  atRest : h.engine.IsAtRest
  isOpen : h.isClosed s.connection = false
  isFree : Action.IsFree h.engine (h.connection s.connection).db name

/-- What is stored under a key is got by it. -/
theorem exists_get_run (hready : s.IsReadyFor h name) (hheader : (s.kept h name).header = some header)
    (hencode : key.encodeKey = .ok encoded) (hview : (s.kept h name).view encoded = some record) :
    ∃ g, (s.get (.text name) key).run h = .ok record g := by
  obtain ⟨e, hget⟩ := Action.exists_get_run hready.isFree hheader hencode hview
  unfold get
  rw [resolve_of_encodeKey hencode]
  exact ⟨_, call_run (r := .ok record) hready.isOpen _ hget⟩

/-- Records that can be written one by one are written, and are kept. -/
theorem exists_write_run (hready : s.IsReadyFor h name) (hheader : (s.kept h name).header = some header)
    {keys : List Value} {c : Collection}
    (hwrites : (s.kept h name).WritesEach name header.keying overwrite (Record.ofArguments args) keys c) :
    ∃ g, (s.write (.text name) args overwrite).run h = .ok (.list (Batch.answered overwrite
        (Record.keyField header.keying) keys ((Record.ofArguments args).map Record.value))) g ∧
      s.kept g name = c := by
  obtain ⟨x, e, haction⟩ := Action.exists_writeRecords_run hready.isFree hheader hwrites
  obtain ⟨_, hconnection⟩ := Action.leaves_connection_of_writeRecords (r := .ok x) hready.atRest haction
  obtain ⟨header', keys', c', hheader', hwrites', rfl, hchanged, _⟩ :=
    Action.exists_writesEach_of_writeRecords haction
  cases hheader.symm.trans hheader'
  obtain ⟨rfl, rfl⟩ := hwrites.unique hwrites'
  refine ⟨_, write_run (r := .ok _) hready.isOpen haction, ?_⟩
  change (e.store (e.connection (h.connection s.connection).db).path).contents.get name = _
  rw [hconnection]
  exact hchanged.own

/-- What is written by a session that yields it was written one by one, and then another batch can be begun. -/
theorem exists_writesEach_of_write_run {answer : Value} (hrest : h.engine.IsAtRest)
    (hheader : (s.kept h name).header = some header)
    (hrun : (s.write (.text name) args overwrite).run h = .ok answer h') : ∃ keys,
    (s.kept h name).WritesEach name header.keying overwrite (Record.ofArguments args) keys (s.kept h' name) ∧
    answer = .list (Batch.answered overwrite (Record.keyField header.keying) keys
      ((Record.ofArguments args).map Record.value)) ∧ s.IsReadyFor h' name := by
  obtain ⟨hopen, keys, target, e, haction, rfl, rfl⟩ := exists_writeRecords_of_write_run hrun
  obtain ⟨hrest', hconnection⟩ := Action.leaves_connection_of_writeRecords (r := .ok _) hrest haction
  have hfree := (Action.isFree_of_writeRecords hrest haction).congr hrest' hconnection
  obtain ⟨header', made, c, hheader', hwrites, hx, hchanged, _⟩ :=
    Action.exists_writesEach_of_writeRecords haction
  cases hheader.symm.trans hheader'
  cases hx
  have hkept : s.kept { h with engine := e } name = c := by
    change (e.store (e.connection (h.connection s.connection).db).path).contents.get name = c
    rw [hconnection]
    exact hchanged.own
  exact ⟨keys, hkept ▸ hwrites, rfl, hrest', hopen, hfree⟩

/-- A caller who holds what was added to a collection can get it by its key, and can update it, which changes
no records. -/
structure Redeems (s : Session) (h : Hub) (name : String) (key returned record : Value) : Prop where
  get : ∃ g, (s.get (.text name) key).run h = .ok record g
  update : ∃ g, (s.update (.text name) [returned]).run h = .ok (.list [returned]) g ∧
    (s.kept g name).records = (s.kept h name).records

/-- A record that is added is put under a key that was free, and is yielded with the key. It is just what is
stored, and is got by its key and leaves all records as they are when it is updated, if and only if it takes
its key. -/
theorem add_hands_back_stored_record_iff {answer : Value} (hrest : h.engine.IsAtRest)
    (hheader : (s.kept h name).header = some header)
    (hpath : header.keying.keyPath = some (.single field)) (hne : field ≠ "")
    (hproper : (Value.dict members).IsProper) (hargs : Record.ofArguments args = [⟨.null, .dict members⟩])
    (hadd : (s.add (.text name) args).run h = .ok answer h') :
    ∃ key encoded, answer = .list [Record.withKey field key (.dict members)] ∧
      (s.kept h name).IsAdded (s.kept h' name) key encoded ∧
      ((∃ record, (s.kept h' name).IsHandedBack (.single field) (Record.withKey field key (.dict members)) key
          encoded record ∧ s.Redeems h' name key (Record.withKey field key (.dict members)) record) ↔
        Record.TakesKey field key members) := by
  obtain ⟨keys, hwrites, rfl, hready⟩ := exists_writesEach_of_write_run hrest hheader hadd
  have hfield : Record.keyField header.keying = field := by
    rw [Record.keyField, hpath]
    exact if_neg hne
  rw [hargs] at hwrites ⊢
  rw [hfield]
  obtain ⟨key, rfl, hwrite⟩ := hwrites.exists_write
  obtain ⟨encoded, hadded⟩ := Collection.exists_isAdded hwrite
  have hkeying : (s.kept h' name).header.map Header.keying = some header.keying := by
    rw [Collection.keying_write hwrite, hheader]
    rfl
  obtain ⟨header', hheader', hsame⟩ := Option.map_eq_some_iff.1 hkeying
  refine ⟨key, encoded, rfl, hadded, fun ⟨record, hback, _⟩ => ?_, fun htakes => ?_⟩
  · exact Collection.takesKey_of_isHandedBack hne hproper hpath hwrite hadded.encodes hback
  · obtain ⟨record, hback, d, hagain, hrecords⟩ :=
      Collection.exists_isHandedBack hne hproper hpath htakes hwrite hadded.encodes
    rw [← hsame] at hagain
    obtain ⟨g, hupdate, hg⟩ : ∃ g, (s.update (.text name) [Record.withKey field key (.dict members)]).run h' =
        .ok (.list [Record.withKey field key (.dict members)]) g ∧ s.kept g name = d :=
      exists_write_run hready hheader' (.cons hagain .nil)
    exact ⟨record, hback, exists_get_run hready hheader' hadded.encodes hback.stored, g, hupdate, hg ▸ hrecords⟩

/-! ### Cards -/

/-- The header of a collection whose keys are generated and are found by a path. -/
def cardsHeader (path : String) : Header := ⟨⟨some (.single path), true⟩, 0⟩

/-- A hub with a session of a store of cards. -/
def cardsHub (path : String) : Hub :=
  { Hub.initial with
    engine := { Engine.initial with
      stores := [("cards.kvdb", ⟨1, ⟨[("cards", ⟨some (cardsHeader path), [], []⟩)]⟩⟩)]
      connections := [⟨"cards.kvdb", 1, false, ["cards"], [], .idle⟩]
      live := [0] }
    connections := [⟨"cards", 1, 0, false, 0, []⟩] }

theorem isAtRest_cardsHub (path : String) : (cardsHub path).engine.IsAtRest where
  live _ hid := by
    rw [List.mem_singleton.1 hid]
    exact Nat.zero_lt_one
  idle
    | 0 => rfl
    | _ + 1 => rfl
  quiet
    | 0 => nofun
    | _ + 1 => nofun

/-- A card on which something is written. -/
def card : List (Value × Value) := [(.text "says", .text "hello")]

theorem isProper_card : (Value.dict card).IsProper := ⟨trivial, fun _ _ => rfl, trivial⟩

/-- The session of the hub. -/
def cards : Session := ⟨0, 0, []⟩

theorem header_cards (path : String) :
    (cards.kept (cardsHub path) "cards").header = some (cardsHeader path) := rfl

/-- A card whose key is put into a field without dots is handed back as it is stored. -/
theorem add_hands_back_stored_record_iff_cards : ∃ answer g key encoded record,
    (cards.add (.text "cards") [.dict card]).run (cardsHub "id") = .ok answer g ∧
    answer = .list [Record.withKey "id" key (.dict card)] ∧
    (cards.kept g "cards").IsHandedBack (.single "id") (Record.withKey "id" key (.dict card)) key
      encoded record ∧
    cards.Redeems g "cards" key (Record.withKey "id" key (.dict card)) record := by
  have hsucceeds : ((cards.add (.text "cards") [.dict card]).run.result? (cardsHub "id")).isSome = true := by
    decide +kernel
  obtain ⟨answer, hanswer⟩ := Option.isSome_iff_exists.1 hsucceeds
  obtain ⟨g, hadd⟩ := exists_ok_of_result? hanswer
  obtain ⟨key, encoded, hyields, _, hiff⟩ := add_hands_back_stored_record_iff (isAtRest_cardsHub "id")
    (header_cards "id") rfl (by decide) isProper_card rfl hadd
  obtain ⟨record, hback, hredeems⟩ := hiff.2 ⟨fun _ => nofun, fun hdots => absurd hdots (by decide)⟩
  exact ⟨answer, g, key, encoded, record, hadd, hyields, hback, hredeems⟩

/-- Under a key path with dots the key path finds no key in the card that is handed back, and to update it
adds another card. -/
theorem add_hands_back_no_stored_record_cards : ∃ answer again g g' key,
    (cards.add (.text "cards") [.dict card]).run (cardsHub "a.b") = .ok answer g ∧
    answer = .list [Record.withKey "a.b" key (.dict card)] ∧
    (KeyPath.single "a.b").find? (Record.withKey "a.b" key (.dict card)) = none ∧
    (cards.update (.text "cards") [answer]).run g = .ok again g' ∧
    (cards.kept g "cards").records.length = 1 ∧ (cards.kept g' "cards").records.length = 2 := by
  have hsucceeds : (((cards.add (.text "cards") [.dict card]).run >>= fun answer =>
      (cards.update (.text "cards") [answer]).run).result? (cardsHub "a.b")).isSome = true := by
    decide +kernel
  obtain ⟨again, hagain⟩ := Option.isSome_iff_exists.1 hsucceeds
  obtain ⟨g', hruns⟩ := exists_ok_of_result? hagain
  obtain ⟨answer, g, hadd, hupdate⟩ := exists_of_bind hruns
  obtain ⟨keys, hwrites, hanswer, _⟩ :=
    exists_writesEach_of_write_run (isAtRest_cardsHub "a.b") (header_cards "a.b") hadd
  obtain ⟨key, rfl, _⟩ := hwrites.exists_write
  have hg := after_of_ok hadd
  have hg' := after_of_ok hruns
  refine ⟨answer, again, g, g', key, hadd, hanswer, ?_, hupdate, ?_, ?_⟩
  · exact Collection.find?_withKey_of_mem (by decide) key
  · rw [← hg]
    decide +kernel
  · rw [← hg']
    decide +kernel

end Session
end RecordStore
