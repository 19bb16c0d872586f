import RecordStore.Proofs.Engine.Opened
import RecordStore.Proofs.Session.Calls

/-!
Batches of records. In its transaction a batch goes just as far as writing its records one by one to the
collection does, and what it has written is kept only if all of them were. The objects of the caller are
reached only after that.
-/

namespace RecordStore

open Effect

/-! ### Records one by one -/

namespace Collection

/-- Records that are written to a collection one by one, with the keys that they yield, and the
collection after them. -/
inductive WritesEach (name : String) (keying : Keying) (overwrite : Bool) :
    Collection → List Record → List Value → Collection → Prop
  | nil {c : Collection} : WritesEach name keying overwrite c [] [] c
  | cons {c c' d : Collection} {record : Record} {rest : List Record} {key : Value} {keys : List Value}
    (first : c.write name keying record.value record.key overwrite = (.ok key, c'))
    (others : WritesEach name keying overwrite c' rest keys d) :
    WritesEach name keying overwrite c (record :: rest) (key :: keys) d

/-- Of records that are to be written one by one, one is refused after those before it are written. -/
def RefusesOne (name : String) (keying : Keying) (overwrite : Bool) (c : Collection)
    (records : List Record) (f : Failure) : Prop :=
  ∃ before record after keys c', records = before ++ record :: after ∧
    WritesEach name keying overwrite c before keys c' ∧
      (c'.write name keying record.value record.key overwrite).1 = .error f

variable {name : String} {keying : Keying} {overwrite : Bool} {c d : Collection}
  {records : List Record} {record : Record} {keys : List Value} {f : Failure}

theorem WritesEach.length_eq (h : WritesEach name keying overwrite c records keys d) :
    keys.length = records.length := by
  induction h with
  | nil => rfl
  | cons _ _ ih => rw [List.length_cons, List.length_cons, ih]

/-- One record is written as such. -/
theorem WritesEach.exists_write (h : WritesEach name keying overwrite c [record] keys d) :
    ∃ key, keys = [key] ∧ c.write name keying record.value record.key overwrite = (.ok key, d) := by
  cases h with
  | cons first others =>
      cases others
      exact ⟨_, rfl, first⟩

/-- There is one way to write records one by one. -/
theorem WritesEach.unique {made : List Value} {c' : Collection}
    (h : WritesEach name keying overwrite c records keys d)
    (h' : WritesEach name keying overwrite c records made c') : keys = made ∧ d = c' := by
  induction h generalizing made with
  | nil =>
      cases h'
      exact ⟨rfl, rfl⟩
  | cons first _ ih =>
      cases h' with
      | cons first' others =>
          cases first.symm.trans first'
          obtain ⟨rfl, rfl⟩ := ih others
          exact ⟨rfl, rfl⟩

/-- No batch that holds a record that is refused is written as a whole. -/
theorem not_writesEach_of_refusesOne (h : RefusesOne name keying overwrite c records f) :
    ¬WritesEach name keying overwrite c records keys d := by
  -- the two agree on the records before the one that is refused
  obtain ⟨before, record, after, made, c', rfl, hbefore, hrefused⟩ := h
  induction hbefore generalizing keys with
  | nil =>
      intro hall
      cases hall with
      | cons first _ =>
          rw [first] at hrefused
          cases hrefused
  | cons first _ ih =>
      intro hall
      cases hall with
      | cons first' others =>
          cases first.symm.trans first'
          exact ih hrefused others

theorem RefusesOne.cons {key : Value} {c' : Collection}
    (first : c.write name keying record.value record.key overwrite = (.ok key, c'))
    (h : RefusesOne name keying overwrite c' records f) :
    RefusesOne name keying overwrite c (record :: records) f := by
  obtain ⟨before, refused, after, keys, d, rfl, hbefore, hrefused⟩ := h
  exact ⟨record :: before, refused, after, key :: keys, d, rfl, .cons first hbefore, hrefused⟩

end Collection

/-! ### Records in a draft -/

namespace Action

section Drafts

variable {e d : Engine} {r : StoreRef} {s : Store} {c : Collection}

/-- Through a transaction with a draft records are written to what is drafted of the collection, as far as
they can be. -/
theorem writeEach_run (h : e.draft? r.transaction = some s)
    (hmode : (e.transaction r.transaction).mode ≠ .readonly) (hd : e.HasDrafted r s c d)
    (overwrite : Bool) (records : List Record) :
    (∃ keys c' d', c.WritesEach r.name r.keying overwrite records keys c' ∧ e.HasDrafted r s c' d' ∧
      writeEach r overwrite records d = .ok keys d') ∨
    ∃ f d', c.RefusesOne r.name r.keying overwrite records f ∧
      writeEach r overwrite records d = .error f d' := by
  induction records generalizing c d with
  | nil => exact .inl ⟨[], c, d, .nil, hd, rfl⟩
  | cons record rest ih =>
      obtain ⟨d', hd', hrun⟩ := hd.write_run h hmode record.value record.key overwrite
      rcases hwrite : c.write r.name r.keying record.value record.key overwrite with ⟨result, c'⟩
      rw [hwrite] at hd' hrun
      cases result with
      | error f =>
          -- what was written before stays in the draft; it is the transaction that drops it
          refine .inr ⟨f, d', ⟨[], record, rest, [], c, rfl, .nil, by rw [hwrite]⟩, ?_⟩
          exact bind_of_error hrun _
      | ok key =>
          rw [writeEach, bind_of_ok hrun]
          rcases ih hd' with ⟨keys, c'', d'', hwrites, hdrafted, hrest⟩ | ⟨f, d'', hrefuses, hrest⟩
          · exact .inl ⟨key :: keys, c'', d'', .cons hwrite hwrites, hdrafted, bind_of_ok hrest _⟩
          · exact .inr ⟨f, d'', hrefuses.cons hwrite, bind_of_error hrest _⟩

end Drafts

/-! ### Records in a transaction of their own -/

variable {e d : Engine} {db : Nat} {name : String} {records : List Record} {overwrite : Bool}

theorem keeps_writeEach {P : Engine → Prop} {r : StoreRef} (hP : Engine.IsKeptWithin r.transaction P)
    (overwrite : Bool) (records : List Record) : (writeEach r overwrite records).Keeps P := by
  induction records with
  | nil => exact keeps_pure _
  | cons record rest ih =>
      exact keeps_bind (keeps_write_within hP _ _ _) fun _ => keeps_bind ih fun _ => keeps_pure _

theorem exists_text_of_writeRecords {collection : Value} {x : List Value × String}
    (h : writeRecords db collection records overwrite e = .ok x d) : ∃ name, collection = .text name := by
  obtain ⟨tx, _, _, hwithin⟩ := exists_of_bind h
  obtain ⟨_, _, _, hbody, _⟩ := within_of_ok hwithin
  obtain ⟨_, _, hobtained, _⟩ := exists_of_bind hbody
  exact exists_text_of_openCollection hobtained

/-- A batch that succeeds has written its records one by one, and nothing else has changed. -/
theorem exists_writesEach_of_writeRecords {x : List Value × String}
    (h : writeRecords db (.text name) records overwrite e = .ok x d) : ∃ header keys c,
      ((e.store (e.connection db).path).contents.get name).header = some header ∧
      ((e.store (e.connection db).path).contents.get name).WritesEach name header.keying overwrite
        records keys c ∧
      x = (keys, Record.keyField header.keying) ∧
      (e.store (e.connection db).path).ChangedAt name c (d.store (e.connection db).path) ∧
      ∀ other, other ≠ (e.connection db).path → d.store other = e.store other := by
  obtain ⟨tx, header, b, b', hopened, hbody, hcommit⟩ := exists_opened_of_ok (.inr rfl) h
  have hdraft := Engine.draft?_eq_some_iff.2 hopened.work
  have hmode : (b.transaction tx).mode ≠ .readonly := by simp [hopened.mode]
  rcases writeEach_run (r := ⟨tx, name, header.keying⟩) hdraft hmode (Engine.hasDrafted_self hdraft)
    overwrite records with ⟨keys, c, _, hwrites, ⟨s, rfl, hchanged⟩, hrun⟩ | ⟨f, _, _, hrun⟩
  · cases (bind_of_ok hrun _).symm.trans hbody
    refine ⟨header, keys, c, hopened.found, hwrites, rfl, ?_, fun other hother => ?_⟩
    · rw [hopened.store_of_commit hcommit, Engine.store_keep_self]
      exact hchanged
    · rw [hopened.store_of_commit hcommit, Engine.store_keep_of_ne hother]
  · cases (bind_of_error hrun _).symm.trans hbody

/-- A batch that fails leaves all stores as they were. -/
theorem stores_of_writeRecords_error {collection : Value} {f : Failure}
    (h : writeRecords db collection records overwrite e = .error f d) : d.stores = e.stores := by
  refine stores_of_error (fun tx => ?_) h
  exact keeps_bind (keeps_openCollection_within (isKeptWithin_stores e tx) collection) fun r =>
    keeps_bind (keeps_writeEach (isKeptWithin_stores e _) overwrite records) fun _ => keeps_pure _

/-- A connection on which a batch for a collection can be begun. -/
structure IsFree (e : Engine) (db : Nat) (name : String) : Prop where
  isOpen : (e.connection db).isClosed = false
  isIdle : (e.connection db).work = .idle
  noWriter : hasOtherWriter e db (e.connection db).path = false
  known : name ∈ (e.connection db).collectionNames

/-- A batch of records that can be written one by one is written. -/
theorem exists_writeRecords_run (h : IsFree e db name) {header : Header} {keys : List Value}
    {c : Collection}
    (hheader : ((e.store (e.connection db).path).contents.get name).header = some header)
    (hwrites : ((e.store (e.connection db).path).contents.get name).WritesEach name header.keying
      overwrite records keys c) :
    ∃ x d, writeRecords db (.text name) records overwrite e = .ok x d := by
  obtain ⟨tx, b, hopened, hrun⟩ :=
    exists_opened_of_idle (.inr rfl) h.isOpen h.isIdle (.inr h.noWriter) h.known hheader
  have hdraft := Engine.draft?_eq_some_iff.2 hopened.work
  have hmode : (b.transaction tx).mode ≠ .readonly := by simp [hopened.mode]
  rcases writeEach_run (r := ⟨tx, name, header.keying⟩) hdraft hmode (Engine.hasDrafted_self hdraft)
    overwrite records with ⟨made, _, _, _, ⟨s, rfl, _⟩, heach⟩ | ⟨f, _, hrefuses, _⟩
  · have hwork := Engine.draft?_eq_some_iff.1 (Engine.draft?_redraft hdraft s)
    have hbody : (writeEach ⟨tx, name, header.keying⟩ overwrite records >>= fun keys =>
        pure (keys, Record.keyField header.keying)) b =
          ending (.ok (made, Record.keyField header.keying)) (b.redraft tx s) := bind_of_ok heach _
    have hconclude := (bind_of_ok (attempt_of_ending hbody) (conclude tx)).trans (conclude_ok_run hwork _)
    exact ⟨_, _, (hrun _).trans hconclude⟩
  · exact absurd hwrites (Collection.not_writesEach_of_refusesOne hrefuses)

end Action

/-! ### The objects of the caller -/

theorem Record.zipWith_mk (records : List Record) :
    List.zipWith Record.mk (records.map key) (records.map value) = records := by
  induction records with
  | nil => rfl
  | cons record rest ih => exact congrArg (record :: ·) ih

namespace Batch

/-- What becomes of objects of which the batch is kept: those that were added get their keys. -/
def answered (overwrite : Bool) (field : String) (keys objects : List Value) : List Value :=
  if overwrite then objects else List.zipWith (Record.withKey field) keys objects

theorem answer_run (overwrite : Bool) (field : String) (keys : List Value) (b : Batch) :
    answer overwrite field keys b = .ok (.list (answered overwrite field keys b.objects))
      { b with objects := answered overwrite field keys b.objects } := by
  cases overwrite with
  | false => rfl
  | true => rfl

section Hubs

variable {α : Type} {h h' : Hub} {objects left : List Value} {r : Except Failure α}

theorem onHub_run {t : Task α} (hrun : t h = ending r h') :
    onHub t ⟨h, objects⟩ = ending r ⟨h', objects⟩ := by
  unfold onHub
  exact focus_of_ending hrun

theorem starting_run {a : Effect Batch α} (hrun : a ⟨h, objects⟩ = ending r ⟨h', left⟩) :
    starting objects a h = ending r h' := by
  unfold starting focus
  rw [hrun]
  cases r with
  | ok x => rfl
  | error f => rfl

/-- A batch that does something to the hub alone, and then answers. -/
theorem starting_onHub_run (t : Task (List Value × String)) (overwrite : Bool) (objects : List Value) (g : Hub) :
    starting objects (onHub t >>= fun (keys, field) => answer overwrite field keys) g =
      (t >>= fun (keys, field) => return .list (answered overwrite field keys objects)) g := by
  obtain ⟨r, hr⟩ := exists_ending t g
  have hhub : onHub t ⟨g, objects⟩ = _ := onHub_run hr
  cases r with
  | error f => exact (starting_run (r := .error f) (bind_of_error hhub _)).trans (bind_of_error hr _).symm
  | ok x =>
      obtain ⟨keys, field⟩ := x
      refine (starting_run (r := .ok _) ((bind_of_ok hhub _).trans (answer_run _ _ _ _))).trans ?_
      exact (bind_of_ok hr fun (keys, field) =>
        (return .list (answered overwrite field keys objects) : Task Value)).symm

end Hubs

end Batch

namespace Session

/-- The path of the store that a session works on. -/
def path (s : Session) (h : Hub) : String := (h.engine.connection (h.connection s.connection).db).path

/-- A collection as it is kept for a session. -/
def kept (s : Session) (h : Hub) (name : String) : Collection :=
  (h.engine.store (s.path h)).contents.get name

/-- How a batch of records ends whose turn has come, told by the hub before and after, by the result and by
what has become of the objects of the caller. -/
structure WritesBatch (s : Session) (collection : Value) (records : List Record) (overwrite : Bool)
    (h : Hub) (r : Except Failure Value) (h' : Hub) (objects : List Value) : Prop where
  /-- A batch that fails leaves all stores and all objects as they were. -/
  failed : ∀ f, r = .error f → h'.engine.stores = h.engine.stores ∧ objects = records.map Record.value
  /-- A batch fails if one of its records is refused after those before it are written. -/
  refused : ∀ name header f, collection = .text name → (s.kept h name).header = some header →
    (s.kept h name).RefusesOne name header.keying overwrite records f → ∃ g, r = .error g
  /-- A batch that succeeds has written its records one by one to one collection and has changed nothing
  else; it yields the objects, which have their keys if they were added. -/
  written : ∀ v, r = .ok v → ∃ name header keys c, collection = .text name ∧
    (s.kept h name).header = some header ∧
    (s.kept h name).WritesEach name header.keying overwrite records keys c ∧
    keys.length = records.length ∧
    (h.engine.store (s.path h)).ChangedAt name c (h'.engine.store (s.path h)) ∧
    (∀ other, other ≠ s.path h → h'.engine.store other = h.engine.store other) ∧
    objects = Batch.answered overwrite (Record.keyField header.keying) keys (records.map Record.value) ∧
    v = .list objects
  /-- A batch whose records can be written one by one succeeds, if the session is open and its connection
  is free. -/
  succeeds : ∀ name header keys c, collection = .text name → h.isClosed s.connection = false →
    Action.IsFree h.engine (h.connection s.connection).db name →
    (s.kept h name).header = some header →
    (s.kept h name).WritesEach name header.keying overwrite records keys c → ∃ v, r = .ok v

variable {s : Session} {collection : Value} {records : List Record} {overwrite : Bool} {g : Hub}

/-- A batch that is refused for the state of its session. -/
theorem writesBatch_of_closed {g' : Hub} (hclosed : g.isClosed s.connection = true)
    (hengine : g'.engine = g.engine) (f : Failure) :
    s.WritesBatch collection records overwrite g (.error f) g' (records.map Record.value) where
  failed _ _ := ⟨by rw [hengine], rfl⟩
  refused _ _ _ _ _ _ := ⟨f, rfl⟩
  written _ h := nomatch h
  succeeds _ _ _ _ _ hopen := absurd (hclosed.symm.trans hopen) (by simp)

theorem writesBatch_of_error {f : Failure} {e : Engine} {g' : Hub}
    (haction : Action.writeRecords (g.connection s.connection).db collection records overwrite g.engine =
      .error f e) (hengine : g'.engine = e) (outward : Failure) :
    s.WritesBatch collection records overwrite g (.error outward) g' (records.map Record.value) where
  failed _ _ := ⟨by rw [hengine, Action.stores_of_writeRecords_error haction], rfl⟩
  refused _ _ _ _ _ _ := ⟨outward, rfl⟩
  written _ h := nomatch h
  succeeds name header keys c hcollection _ hfree hheader hwrites := by
    subst hcollection
    obtain ⟨_, _, hrun⟩ := Action.exists_writeRecords_run hfree hheader hwrites
    cases hrun.symm.trans haction

theorem writesBatch_of_ok {keys : List Value} {field : String} {e : Engine} {g' : Hub}
    (haction : Action.writeRecords (g.connection s.connection).db collection records overwrite g.engine =
      .ok (keys, field) e) (hengine : g'.engine = e) :
    s.WritesBatch collection records overwrite g
      (.ok (.list (Batch.answered overwrite field keys (records.map Record.value)))) g'
      (Batch.answered overwrite field keys (records.map Record.value)) := by
  obtain ⟨name, rfl⟩ := Action.exists_text_of_writeRecords haction
  obtain ⟨header, made, c, hheader, hwrites, hx, hchanged, hothers⟩ :=
    Action.exists_writesEach_of_writeRecords haction
  cases hx
  subst hengine
  constructor
  case failed => exact nofun
  case refused =>
    rintro _ header' f ⟨⟩ hheader' hrefuses
    cases hheader.symm.trans hheader'
    exact absurd hwrites (Collection.not_writesEach_of_refusesOne hrefuses)
  case written =>
    rintro _ ⟨⟩
    exact ⟨name, header, keys, c, rfl, hheader, hwrites, hwrites.length_eq, hchanged, hothers, rfl, rfl⟩
  case succeeds => exact fun _ _ _ _ _ _ _ _ _ => ⟨_, rfl⟩

/-- Whatever a job does in the engine, the objects are answered after it. -/
theorem exists_writesBatch {job : Task (List Value × String)} (hjob : s.Performs
      (fun db => Action.writeRecords db collection records overwrite) job g) :
    ∃ r g' objects, (Batch.onHub job >>= fun (keys, field) => Batch.answer overwrite field keys)
        ⟨g, records.map Record.value⟩ = ending r ⟨g', objects⟩ ∧
      s.WritesBatch collection records overwrite g r g' objects := by
  cases hjob with
  | refused hclosed hjob hengine =>
      have hhub : Batch.onHub job ⟨g, records.map Record.value⟩ = _ :=
        focus_of_ending (r := .error .sessionClosed) hjob
      exact ⟨.error .sessionClosed, _, _, bind_of_error hhub _, writesBatch_of_closed hclosed hengine _⟩
  | @done r e g' haction hjob hengine =>
      have hhub : Batch.onHub job ⟨g, records.map Record.value⟩ = _ := focus_of_ending hjob
      cases r with
      | error f =>
          exact ⟨.error f.outward, _, _, bind_of_error hhub _, writesBatch_of_error haction hengine _⟩
      | ok x =>
          obtain ⟨keys, field⟩ := x
          refine ⟨.ok _, _, _, (bind_of_ok hhub _).trans (Batch.answer_run _ _ _ _), ?_⟩
          exact writesBatch_of_ok haction hengine

/-- An operation writes the records among some arguments as one batch. A closed session is refused. An open
one asks for its turn, and whenever that comes, and whatever was done in between, the batch is written then:
`job` does it to the hub and the objects of the caller, and the operation does it to the hub. -/
def WritesWhole (s : Session) (collection : Value) (args : List Value) (overwrite : Bool)
    (o : Operation Hub Value) : Prop :=
  let records := Record.ofArguments args
  let values := records.map Record.value
  let objects := s.writeObjects collection (records.map Record.key) overwrite
  ∀ h, (h.isClosed s.connection = true ∧ o.enter h = .error .sessionClosed h ∧
      objects.enter ⟨h, values⟩ = .error .sessionClosed ⟨h, values⟩) ∨
    ∃ job h', objects.enter ⟨h, values⟩ = .ok (.waiting job) ⟨h', values⟩ ∧
      o.enter h = .ok (.waiting (Batch.starting values job)) h' ∧ h'.engine = h.engine ∧
      ∀ g, ∃ r g' left, job ⟨g, values⟩ = ending r ⟨g', left⟩ ∧
        s.WritesBatch collection records overwrite g r g' left

section Entering

variable {h h' : Hub} {args objects : List Value}

/-- The operation on the hub alone starts with the objects that it is given. -/
theorem write_of_waiting {job : Effect Batch Value}
    (hobjects : (s.writeObjects collection ((Record.ofArguments args).map Record.key) overwrite).enter
      ⟨h, (Record.ofArguments args).map Record.value⟩ = .ok (.waiting job) ⟨h', objects⟩) :
    (s.write collection args overwrite).enter h =
      .ok (.waiting (Batch.starting ((Record.ofArguments args).map Record.value) job)) h' :=
  Operation.lift_of_waiting (fun h : Hub => (⟨h, _⟩ : Batch)) (fun b _ => b.hub) hobjects

theorem write_of_error {f : Failure}
    (hobjects : (s.writeObjects collection ((Record.ofArguments args).map Record.key) overwrite).enter
      ⟨h, (Record.ofArguments args).map Record.value⟩ = .error f ⟨h', objects⟩) :
    (s.write collection args overwrite).enter h = .error f h' :=
  Operation.lift_of_error (fun h : Hub => (⟨h, _⟩ : Batch)) (fun b _ => b.hub) hobjects

theorem writeObjects_of_closed (hclosed : h.isClosed s.connection = true) (keys : List Value) :
    (s.writeObjects collection keys overwrite).enter ⟨h, objects⟩ = .error .sessionClosed ⟨h, objects⟩ :=
  Operation.andThen_of_error <|
    Operation.lift_of_error Batch.hub (fun h b => { b with hub := h }) (call_of_closed hclosed _ _)

/-- A batch asks for its turn as a call does, and then answers with the objects. -/
theorem writeObjects_of_waiting {records : List Record} {job : Task (List Value × String)}
    (hcall : (s.call (.ok records) fun records db =>
      Action.writeRecords db collection records overwrite).enter h = .ok (.waiting job) h') :
    (s.writeObjects collection (records.map Record.key) overwrite).enter ⟨h, records.map Record.value⟩ =
      .ok (.waiting (Batch.onHub job >>= fun (keys, field) => Batch.answer overwrite field keys))
        ⟨h', records.map Record.value⟩ := by
  refine Operation.andThen_of_waiting ?_
  refine Operation.lift_of_waiting Batch.hub (fun h b => { b with hub := h }) ?_
  rw [Record.zipWith_mk]
  exact hcall

/-- On an open session a batch asks for its turn. -/
theorem exists_writeObjects_enter (hopen : h.isClosed s.connection = false) (collection : Value)
    (records : List Record) (overwrite : Bool) : ∃ job h',
      (s.writeObjects collection (records.map Record.key) overwrite).enter
        ⟨h, records.map Record.value⟩ = .ok (.waiting job) ⟨h', records.map Record.value⟩ ∧
      h'.engine = h.engine ∧ ∀ g, ∃ r g' left, job ⟨g, records.map Record.value⟩ = ending r ⟨g', left⟩ ∧
        s.WritesBatch collection records overwrite g r g' left := by
  obtain ⟨job, h', hcall, hengine, hjob⟩ := call_of_open hopen records
    fun records db => Action.writeRecords db collection records overwrite
  exact ⟨_, h', writeObjects_of_waiting hcall, hengine, fun g => exists_writesBatch (hjob g)⟩

end Entering

/-- For the hub a batch is a call that answers with what has become of the objects. -/
theorem write_eq (s : Session) (collection : Value) (args : List Value) (overwrite : Bool) :
    s.write collection args overwrite = (s.call (.ok (Record.ofArguments args)) fun records db =>
      Action.writeRecords db collection records overwrite).andThen fun (keys, field) =>
        return .list (Batch.answered overwrite field keys ((Record.ofArguments args).map Record.value)) := by
  refine congrArg Operation.mk (funext fun h => ?_)
  cases hclosed : h.isClosed s.connection with
  | true =>
      refine (write_of_error (writeObjects_of_closed hclosed _)).trans ?_
      exact (Operation.andThen_of_error (call_of_closed hclosed _ _)).symm
  | false =>
      have hcall := call_enter_of_open hclosed (Record.ofArguments args) fun records db =>
        Action.writeRecords db collection records overwrite
      refine (write_of_waiting (writeObjects_of_waiting hcall)).trans ?_
      refine Eq.trans ?_ (Operation.andThen_of_waiting hcall).symm
      refine congrArg (fun job => EStateM.Result.ok (Turn.waiting job) _) (funext fun g => ?_)
      exact Batch.starting_onHub_run _ _ _ g

theorem writesWhole_write (s : Session) (collection : Value) (args : List Value) (overwrite : Bool) :
    s.WritesWhole collection args overwrite (s.write collection args overwrite) := by
  intro h
  cases hclosed : h.isClosed s.connection with
  | true =>
      exact .inl ⟨rfl, write_of_error (writeObjects_of_closed hclosed _), writeObjects_of_closed hclosed _⟩
  | false =>
      obtain ⟨job, h', hobjects, hengine, hjob⟩ :=
        exists_writeObjects_enter hclosed collection (Record.ofArguments args) overwrite
      exact .inr ⟨job, h', hobjects, write_of_waiting hobjects, hengine, hjob⟩

/-- Of two notes under one key either can be added, and not both in one batch. -/
example :
    let h : Hub := { Hub.initial with
      engine := Action.notesReady
      connections := [⟨"path", 1, 0, false, 0, []⟩] }
    let s : Session := ⟨0, 0, []⟩
    let note (text : String) : Value := .keyed (.int 1) (.text text)
    [[note "first"], [note "second"], [.list [note "first"], note "second"]].map
      (fun args => ((s.add (.text "notes") args).run.result? h).isSome) = [true, true, false] := by
  decide +kernel

end Session
end RecordStore
