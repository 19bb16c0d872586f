import RecordStore.Proofs.Cursor.Rewriting
import RecordStore.Proofs.Engine.Opened
import RecordStore.Proofs.Query.Running

/-!
The passage of a query that succeeds, told by its cursor and by the collection as it changes, without the
engine. A run of the engine that succeeds has such a passage: all that it reads is the draft of its own
transaction, and all that it changes is one collection in it. A run that fails leaves all stores alone.
-/

namespace RecordStore

open Effect

namespace CursorRef

variable {e d : Engine} {c : Collection} {r next : CursorRef} {count : Nat}

theorem step_of_ok {result : Except Failure Unit} (hread : r.store.collection e = .ok c e)
    (h : r.step count e = .ok (result, next) d) : d = e ∧ (r.cursor.step c count).1 = result ∧
      next = { r with cursor := (r.cursor.step c count).2 } := by
  unfold step at h
  rw [bind_of_ok hread] at h
  obtain ⟨_, h⟩ := passed_of_guard h
  cases h
  exact ⟨rfl, rfl, rfl⟩

/-- A record that was written back through a transaction with a draft is written in the draft. -/
theorem update_of_ok {s : Store} {value k : Value} (h : e.draft? r.store.transaction = some s)
    (hmode : (e.transaction r.store.transaction).mode ≠ .readonly) (hrun : r.update value e = .ok k d) :
    ∃ c, (s.contents.get r.store.name).WritesBack r.store.name r.store.keying r.cursor.primaryKey
        value c ∧ d = e.redraft r.store.transaction
          { s with contents := s.contents.set r.store.name c } := by
  have hput {key k : Value} (hrun : r.store.put value key e = .ok k d) :
      ∃ c, (s.contents.get r.store.name).write r.store.name r.store.keying value key true = (.ok k, c) ∧
        d = e.redraft r.store.transaction { s with contents := s.contents.set r.store.name c } := by
    unfold StoreRef.put StoreRef.write at hrun
    rw [bind_of_ok (Action.ensureWritable_of_draft h hmode), StoreRef.change_of_draft h,
      ending_eq_ok_iff] at hrun
    exact ⟨_, Prod.ext hrun.1 rfl, hrun.2.symm⟩
  unfold update at hrun
  obtain ⟨_, hpassed⟩ := passed_of_guard hrun
  obtain ⟨⟨⟩, e', hpositioned, hwritten⟩ := exists_of_bind (a := r.ensurePositioned) hpassed
  have hsame : e' = e := by
    unfold ensurePositioned at hpositioned
    split at hpositioned <;> cases hpositioned
    rfl
  subst hsame
  cases hpath : r.store.keying.keyPath with
  | none =>
      rw [hpath] at hwritten
      obtain ⟨c, hc, hd⟩ := hput hwritten
      exact ⟨c, ⟨by rw [hpath]; exact nofun, k, by rw [hpath]; exact hc⟩, hd⟩
  | some path =>
      rw [hpath] at hwritten
      obtain ⟨⟨⟩, _, hkept, hwritten⟩ := exists_of_bind hwritten
      rw [ofExcept_run, ending_eq_ok_iff] at hkept
      obtain ⟨hkept, rfl⟩ := hkept
      obtain ⟨c, hc, hd⟩ := hput hwritten
      refine ⟨c, ⟨?_, k, by rw [hpath]; exact hc⟩, hd⟩
      rw [hpath]
      rintro _ ⟨⟩
      exact hkept

end CursorRef

/-! ### The passage of a query -/

namespace Query

/-- What a query makes of a record by its rule; a rule that sets nothing leaves the record alone. -/
def modified (q : Query) (v : Value) : Except Failure Value :=
  match q.rule with
  | none | some [] => .ok v
  | some rule => rule.apply v

/-- What it is for a query to modify a record under a cursor, in a collection that it knows by a name
and a keying: the record is made anew and written back. -/
structure Modifies (q : Query) (name : String) (keying : Keying) (cur : Cursor) (c : Collection)
    (v m : Value) (d : Collection) : Prop where
  made : q.modified v = .ok m
  written : if q.isWriting then c.WritesBack name keying cur.primaryKey m d else d = c

/-- How a query goes from a cursor on to its end, when so many rows were skipped or taken: what it finds
in the collection, what it yields, and the collection that it leaves. -/
inductive Passage (q : Query) (name : String) (keying : Keying) :
    Cursor → Nat → Collection → List Value → Collection → Prop
  /-- There is no row left. -/
  | done {cur : Cursor} {passed : Nat} {c : Collection} (hdone : cur.isDone = true) :
    Passage q name keying cur passed c [] c
  /-- The rows to be skipped are passed over. -/
  | skip {cur next : Cursor} {passed : Nat} {c d : Collection} {results : List Value}
    (hdone : cur.isDone = false) (hskip : passed < q.skip)
    (hstep : cur.step c q.skip = (.ok (), next)) (rest : Passage q name keying next q.skip c results d) :
    Passage q name keying cur passed c results d
  /-- The window is full. -/
  | full {cur : Cursor} {passed : Nat} {c : Collection} (hdone : cur.isDone = false)
    (hskip : q.skip ≤ passed) (hfull : q.isFull passed = true) : Passage q name keying cur passed c [] c
  /-- A filter does not agree. -/
  | pass {cur next : Cursor} {passed : Nat} {c d : Collection} {v : Value} {results : List Value}
    (hdone : cur.isDone = false) (hskip : q.skip ≤ passed) (hfull : q.isFull passed = false)
    (hfilters : Filter.allHold q.filters (q.subject cur) = .ok (false, v))
    (hstep : cur.step c 1 = (.ok (), next)) (rest : Passage q name keying next passed c results d) :
    Passage q name keying cur passed c results d
  /-- All filters agree, and the record is modified and mapped. -/
  | take {cur next : Cursor} {passed : Nat} {c c' d : Collection} {v m w : Value} {results : List Value}
    (hdone : cur.isDone = false) (hskip : q.skip ≤ passed) (hfull : q.isFull passed = false)
    (hfilters : Filter.allHold q.filters (q.subject cur) = .ok (true, v))
    (hmodifies : q.Modifies name keying cur c v m c') (hmap : q.map m = .ok w)
    (hstep : cur.step c' 1 = (.ok (), next))
    (rest : Passage q name keying next (passed + 1) c' results d) :
    Passage q name keying cur passed c (w :: results) d

variable {q : Query} {e d : Engine} {store : StoreRef} {cur : Cursor} {c : Collection}
  {passed visits : Nat} {results taken : List Value}

theorem modified_of_not_isWriting (h : q.isWriting = false) (v : Value) : q.modified v = .ok v := by
  unfold isWriting at h
  unfold modified
  split
  · rfl
  · rfl
  · next rule hne hrule =>
    rw [hrule] at h
    cases rule with
    | nil => exact absurd rfl hne
    | cons a rest => cases h

theorem modified_of_rule {a : Value × Value} {rest : Rule} (h : q.rule = some (a :: rest)) (v : Value) :
    q.modified v = Rule.apply (a :: rest) v := by
  rw [modified, h]

theorem modifies_of_not_isWriting (h : q.isWriting = false) {name : String} {keying : Keying}
    {v : Value} : q.Modifies name keying cur c v v c :=
  ⟨modified_of_not_isWriting h v, by rw [h]; rfl⟩

section Runs

-- which states of the engine have which collection, and how modifying a record leads on from one
variable {Γ : Collection → Engine → Prop} (hread : ∀ c e, Γ c e → store.collection e = .ok c e)
  (hmodify : ∀ cur c v e m d, Γ c e → q.modify ⟨store, cur⟩ v e = .ok m d →
    ∃ c', Γ c' d ∧ q.Modifies store.name store.keying cur c v m c')

include hread in
theorem goOn_of_ok (h : Γ c e) (hrun : q.goOn visits ⟨store, cur⟩ passed taken e = .ok results d) :
    ∃ next others, cur.step c 1 = (.ok (), next) ∧
      q.traverse visits ⟨store, next⟩ (passed + taken.length) e = .ok others d ∧
        results = taken ++ others := by
  obtain ⟨⟨result, next⟩, e', hstep, hrun⟩ := exists_of_bind hrun
  obtain ⟨rfl, hresult, rfl⟩ := CursorRef.step_of_ok (hread c e h) hstep
  obtain ⟨⟨⟩, _, hchecked, hrun⟩ := exists_of_bind hrun
  rw [ofExcept_run, ending_eq_ok_iff] at hchecked
  obtain ⟨rfl, rfl⟩ := hchecked
  obtain ⟨others, _, hothers, hrun⟩ := exists_of_bind hrun
  cases hrun
  exact ⟨_, others, Prod.ext hresult rfl, hothers, rfl⟩

include hread hmodify in
/-- A traversal that succeeds has a passage. -/
theorem passage_of_traverse (h : Γ c e)
    (hrun : q.traverse visits ⟨store, cur⟩ passed e = .ok results d) :
    ∃ c', Γ c' d ∧ Passage q store.name store.keying cur passed c results c' := by
  -- on the visits that are left: to run out of them is a failure
  induction visits generalizing cur passed c e results with
  | zero => cases hrun
  | succ n ih =>
      rw [traverse] at hrun
      split at hrun
      · next hdone =>
        cases hrun
        exact ⟨c, h, .done hdone⟩
      next hdone =>
      have hdone : cur.isDone = false := Bool.not_eq_true _ ▸ hdone
      split at hrun
      · next hskip =>
        obtain ⟨⟨result, next⟩, e', hstep, hrun⟩ := exists_of_bind hrun
        obtain ⟨rfl, hresult, rfl⟩ := CursorRef.step_of_ok (hread c e h) hstep
        obtain ⟨⟨⟩, _, hchecked, hrun⟩ := exists_of_bind hrun
        rw [ofExcept_run, ending_eq_ok_iff] at hchecked
        obtain ⟨rfl, rfl⟩ := hchecked
        obtain ⟨c', hc', hpassage⟩ := ih h hrun
        exact ⟨c', hc', .skip hdone hskip (Prod.ext hresult rfl) hpassage⟩
      next hskip =>
      have hskip : q.skip ≤ passed := Nat.not_lt.1 hskip
      split at hrun
      · next hfull =>
        cases hrun
        exact ⟨c, h, .full hdone hskip hfull⟩
      next hfull =>
      have hfull : q.isFull passed = false := Bool.not_eq_true _ ▸ hfull
      obtain ⟨⟨isMatch, v⟩, _, hfilters, hrun⟩ := exists_of_bind hrun
      rw [ofExcept_run, ending_eq_ok_iff] at hfilters
      obtain ⟨hfilters, rfl⟩ := hfilters
      cases isMatch with
      | false =>
          change q.goOn n ⟨store, cur⟩ passed [] e = _ at hrun
          obtain ⟨next, others, hstep, hothers, rfl⟩ := goOn_of_ok hread h hrun
          obtain ⟨c', hc', hpassage⟩ := ih h hothers
          exact ⟨c', hc', .pass hdone hskip hfull hfilters hstep hpassage⟩
      | true =>
          obtain ⟨m, e', hm, hrun⟩ := exists_of_bind hrun
          obtain ⟨w, _, hw, hrun⟩ := exists_of_bind hrun
          rw [ofExcept_run, ending_eq_ok_iff] at hw
          obtain ⟨hmap, rfl⟩ := hw
          obtain ⟨c', hc', hmodifies⟩ := hmodify _ _ _ _ _ _ h hm
          change q.goOn n ⟨store, cur⟩ passed [w] e' = _ at hrun
          obtain ⟨next, others, hstep, hothers, rfl⟩ := goOn_of_ok hread hc' hrun
          obtain ⟨c'', hc'', hpassage⟩ := ih hc' hothers
          exact ⟨c'', hc'', .take hdone hskip hfull hfilters hmodifies hmap hstep hpassage⟩

end Runs

section Drafts

variable {s : Store}

theorem modifies_of_draft (h : e.draft? store.transaction = some s)
    (hmode : (e.transaction store.transaction).mode ≠ .readonly) {b : Engine} {v m : Value}
    (hb : e.HasDrafted store s c b) (hrun : q.modify ⟨store, cur⟩ v b = .ok m d) :
    ∃ c', e.HasDrafted store s c' d ∧ q.Modifies store.name store.keying cur c v m c' := by
  cases hwriting : q.isWriting with
  | false =>
      rw [modify_of_not_isWriting hwriting] at hrun
      cases hrun
      exact ⟨c, hb, modifies_of_not_isWriting hwriting⟩
  | true =>
      obtain ⟨a, rest, hrule⟩ : ∃ a rest, q.rule = some (a :: rest) := by
        obtain ⟨rule, hrule, hne⟩ := (Option.any_eq_true _ _).1 hwriting
        cases rule with
        | nil => cases hne
        | cons a rest => exact ⟨a, rest, hrule⟩
      obtain ⟨s', rfl, hchanged⟩ := hb
      have hdraft : (e.redraft store.transaction s').draft? store.transaction = some s' :=
        Engine.draft?_redraft h s'
      unfold modify at hrun
      rw [hrule] at hrun
      obtain ⟨m', _, hmade, hrun⟩ := exists_of_bind hrun
      rw [ofExcept_run, ending_eq_ok_iff] at hmade
      obtain ⟨hmade, rfl⟩ := hmade
      obtain ⟨k, _, hupdate, hrun⟩ := exists_of_bind hrun
      cases hrun
      obtain ⟨c', hwritten, rfl⟩ := CursorRef.update_of_ok hdraft hmode hupdate
      refine ⟨c', ⟨_, Engine.redraft_redraft h _ _, hchanged.set _⟩, ?_, ?_⟩
      · rw [modified_of_rule hrule]
        exact hmade
      · rw [hwriting, if_pos rfl]
        exact hchanged.own ▸ hwritten

/-- A traversal through a transaction with a draft has a passage, which ends with the collection that is
then in the draft. -/
theorem passage_of_draft (h : e.draft? store.transaction = some s)
    (hmode : (e.transaction store.transaction).mode ≠ .readonly)
    (hrun : q.traverse visits ⟨store, cur⟩ passed e = .ok results d) :
    ∃ c, e.HasDrafted store s c d ∧ Passage q store.name store.keying cur passed
      (s.contents.get store.name) results c := by
  refine passage_of_traverse ?_ (fun _ _ _ _ _ _ => modifies_of_draft h hmode)
    (Engine.hasDrafted_self h) hrun
  rintro _ _ ⟨s', rfl, hchanged⟩
  rw [StoreRef.collection_of_draft (Engine.draft?_redraft h s'), hchanged.own]

/-- A traversal of a query that only reads has a passage, which leaves the collection alone. -/
theorem passage_of_reading (hwriting : q.isWriting = false) (hread : store.collection e = .ok c e)
    (hrun : q.traverse visits ⟨store, cur⟩ passed e = .ok results d) :
    d = e ∧ Passage q store.name store.keying cur passed c results c := by
  have hmodify (cur : Cursor) (c' : Collection) (v : Value) (b : Engine) (m : Value) (d : Engine)
      (hb : c' = c ∧ b = e) (hrun : q.modify ⟨store, cur⟩ v b = .ok m d) :
      ∃ c'', (c'' = c ∧ d = e) ∧ q.Modifies store.name store.keying cur c' v m c'' := by
    rw [modify_of_not_isWriting hwriting] at hrun
    cases hrun
    exact ⟨c', hb, modifies_of_not_isWriting hwriting⟩
  obtain ⟨c', ⟨rfl, rfl⟩, hpassage⟩ := passage_of_traverse (Γ := fun c' d => c' = c ∧ d = e)
    (by rintro _ _ ⟨rfl, rfl⟩; exact hread) hmodify ⟨rfl, rfl⟩ hrun
  exact ⟨rfl, hpassage⟩

end Drafts

/-! ### Queries as a whole -/

section Whole

variable {name : String} {db : Nat} {query : Value} {range : Option (KeyRange Value)}
  {result : QueryResult} {source : Option String}

theorem obtainSource_of_ok (hread : store.collection e = .ok c e)
    (h : q.obtainSource store e = .ok source d) : d = e ∧ q.source? c = some source := by
  unfold obtainSource at h
  unfold source?
  split at h
  · next hnull =>
    cases h
    exact ⟨rfl, if_pos hnull⟩
  · next hnull =>
    obtain ⟨i, e', hindex, h⟩ := exists_of_bind h
    cases h
    unfold StoreRef.openIndex at hindex
    rw [bind_of_ok hread] at hindex
    rw [if_neg hnull]
    cases hi : c.index? q.index.display with
    | none =>
        rw [hi] at hindex
        cases hindex
    | some i =>
        rw [hi] at hindex
        cases hindex
        exact ⟨rfl, rfl⟩

/-- A query that scanned its source has traversed it from its first row on. -/
theorem exists_traverse_of_scanSource (hread : store.collection e = .ok c e)
    (hrange : KeyRange.ofQuery query = .ok range) (hstate : q.state ≠ .count)
    (h : q.scanSource store query source e = .ok result d) : ∃ cur visits results,
      (q.cursor source range).step c 1 = (.ok (), cur) ∧
        q.traverse visits ⟨store, cur⟩ 0 e = .ok results d ∧ result = .results results := by
  unfold scanSource at h
  rw [if_neg hstate] at h
  obtain ⟨r, e', hstart, h⟩ := exists_of_bind h
  rw [CursorRef.start_run hread hrange, ending_eq_ok_iff] at hstart
  obtain ⟨hstart, rfl⟩ := hstart
  obtain ⟨⟨⟩, hstep, rfl⟩ := map_eq_ok_iff.1 hstart
  rw [bind_of_ok hread] at h
  obtain ⟨results, e', htraverse, h⟩ := exists_of_bind h
  cases h
  exact ⟨_, _, results, Prod.ext hstep rfl, htraverse, rfl⟩

/-- A query that succeeds has opened its collection, scanned its source, and committed. -/
theorem exists_opened_of_run (hcollection : q.collection = .text name)
    (hrun : q.run db query e = .ok result d) : ∃ tx header b b',
      Action.HasOpened (if q.isWriting then .readwrite else .readonly) db name header tx e b ∧
      (q.obtainSource ⟨tx, name, header.keying⟩ >>= q.scanSource ⟨tx, name, header.keying⟩ query) b =
        .ok result b' ∧
      Action.commit tx b' = .ok () d := by
  have hmode : (if q.isWriting then Mode.readwrite else .readonly) = .readonly ∨
      (if q.isWriting then Mode.readwrite else .readonly) = .readwrite := by
    cases q.isWriting with
    | false => exact .inl rfl
    | true => exact .inr rfl
  unfold run at hrun
  simp only [hcollection, scan_eq] at hrun
  exact Action.exists_opened_of_ok hmode hrun

variable {header : Header} {tx : Nat} {b b' : Engine}

/-- A query that only reads passes over its collection and changes no store. -/
theorem passage_of_opened_reading (h : Action.HasOpened .readonly db name header tx e b)
    (hwriting : q.isWriting = false)
    (htraverse : q.traverse visits ⟨⟨tx, name, header.keying⟩, cur⟩ 0 b = .ok results b')
    (hcommit : Action.commit tx b' = .ok () d) :
    Passage q name header.keying cur 0 ((e.store (e.connection db).path).contents.get name) results
      ((e.store (e.connection db).path).contents.get name) ∧
    ∀ other, d.store other = e.store other := by
  obtain ⟨rfl, hpassage⟩ := passage_of_reading hwriting h.collection htraverse
  have hstores : d.stores = e.stores := (Action.stores_of_commit h.work hcommit).trans h.stores
  exact ⟨hpassage, Engine.store_congr hstores⟩

/-- A query that writes passes over its collection as it changes in the draft, and the draft is kept. -/
theorem passage_of_opened_writing (h : Action.HasOpened .readwrite db name header tx e b)
    (htraverse : q.traverse visits ⟨⟨tx, name, header.keying⟩, cur⟩ 0 b = .ok results b')
    (hcommit : Action.commit tx b' = .ok () d) : ∃ c s,
      Passage q name header.keying cur 0 ((e.store (e.connection db).path).contents.get name) results c ∧
      (e.store (e.connection db).path).ChangedAt name c s ∧
      ∀ other, d.store other = (e.keep (e.connection db).path s).store other := by
  obtain ⟨c, ⟨s, rfl, hchanged⟩, hpassage⟩ :=
    passage_of_draft (Engine.draft?_eq_some_iff.2 h.work) (by simp [h.mode]) htraverse
  exact ⟨c, s, hpassage, hchanged, h.store_of_commit hcommit⟩

/-- A query that succeeds has a passage over the collection as it is kept when it begins, and what it
leaves is kept instead; no other collection and no other store changes. -/
theorem exists_passage_of_run (hcollection : q.collection = .text name) (hstate : q.state ≠ .count)
    (hrange : KeyRange.ofQuery query = .ok range) (hrun : q.run db query e = .ok result d) :
    ∃ header source cur results c',
      ((e.store (e.connection db).path).contents.get name).header = some header ∧
      q.source? ((e.store (e.connection db).path).contents.get name) = some source ∧
      (q.cursor source range).step ((e.store (e.connection db).path).contents.get name) 1 =
        (.ok (), cur) ∧
      Passage q name header.keying cur 0 ((e.store (e.connection db).path).contents.get name) results
        c' ∧
      result = .results results ∧
      (e.store (e.connection db).path).ChangedAt name c' (d.store (e.connection db).path) ∧
      ∀ other, other ≠ (e.connection db).path → d.store other = e.store other := by
  obtain ⟨tx, header, b, b', hopened, hbody, hcommit⟩ := exists_opened_of_run hcollection hrun
  obtain ⟨source, _, hobtained, hscan⟩ := exists_of_bind hbody
  obtain ⟨rfl, hsource⟩ := obtainSource_of_ok hopened.collection hobtained
  obtain ⟨cur, visits, results, hstep, htraverse, rfl⟩ :=
    exists_traverse_of_scanSource hopened.collection hrange hstate hscan
  cases hwriting : q.isWriting with
  | false =>
      rw [hwriting] at hopened
      obtain ⟨hpassage, hsame⟩ := passage_of_opened_reading hopened hwriting htraverse hcommit
      refine ⟨header, source, cur, results, _, hopened.found, hsource, hstep, hpassage, rfl, ?_, ?_⟩
      · rw [hsame]
        exact ⟨rfl, rfl, fun _ _ => rfl⟩
      · exact fun other _ => hsame other
  | true =>
      rw [hwriting] at hopened
      obtain ⟨c', s, hpassage, hchanged, hkept⟩ := passage_of_opened_writing hopened htraverse hcommit
      refine ⟨header, source, cur, results, c', hopened.found, hsource, hstep, hpassage, rfl, ?_, ?_⟩
      · rw [hkept, Engine.store_keep_self]
        exact hchanged
      · intro other hother
        rw [hkept, Engine.store_keep_of_ne hother]

end Whole

/-! ### Queries that fail -/

section Failing

variable {P : Engine → Prop} (hP : ∀ tx, Engine.IsKeptWithin tx P)

include hP

theorem keeps_update_within (r : CursorRef) (v : Value) : (r.update v).Keeps P :=
  CursorRef.meets_update (fun _ he => he) fun _ => Action.keeps_write_within (hP _) _ _ _

theorem keeps_traverse_within (q : Query) (visits : Nat) (r : CursorRef) (passed : Nat) :
    (q.traverse visits r passed).Keeps P := by
  have hstep (r : CursorRef) (count : Nat) : (r.step count).Keeps P :=
    CursorRef.keeps_step (Action.keeps_read_within (hP _)) count
  induction visits generalizing r passed with
  | zero => exact keeps_throw _
  | succ n ih =>
      have hgoOn (taken : List Value) : (q.goOn n r passed taken).Keeps P :=
        keeps_bind (hstep r 1) fun _ => keeps_bind (keeps_ofExcept _) fun _ =>
          keeps_bind (ih _ _) fun _ => keeps_pure _
      have hmodify (v : Value) : (q.modify r v).Keeps P := by
        unfold modify
        split
        · exact keeps_pure _
        · exact keeps_pure _
        · exact keeps_bind (keeps_ofExcept _) fun m =>
            keeps_bind (keeps_update_within hP r m) fun _ => keeps_pure _
      rw [traverse]
      refine meets_ite (fun _ => keeps_pure _) fun _ => meets_ite (fun _ => ?_) fun _ =>
        meets_ite (fun _ => keeps_pure _) fun _ => keeps_bind (keeps_ofExcept _) fun matched => ?_
      · exact keeps_bind (hstep r q.skip) fun _ => keeps_bind (keeps_ofExcept _) fun _ => ih _ _
      · refine meets_ite (fun _ => ?_) fun _ => hgoOn []
        exact keeps_bind (hmodify _) fun _ => keeps_bind (keeps_ofExcept _) fun w => hgoOn [w]

theorem keeps_scan_within (q : Query) (tx : Nat) (query : Value) : (q.scan tx query).Keeps P := by
  have hread (tx : Nat) : (Action.read tx).Keeps P := Action.keeps_read_within (hP tx)
  rw [scan_eq]
  refine keeps_bind (Action.keeps_openCollection_within (hP tx) q.collection) fun store => ?_
  refine keeps_bind ?_ fun source => ?_
  · exact meets_ite (fun _ => keeps_pure _) fun _ =>
      keeps_bind (StoreRef.keeps_openIndex (hread _) _) fun _ => keeps_pure _
  · refine meets_ite (fun _ => keeps_bind (StoreRef.keeps_count (hread _) _ _) fun _ => keeps_pure _)
      fun _ => ?_
    refine keeps_bind (CursorRef.keeps_start (hread _) _ _ _ _) fun r => ?_
    exact keeps_bind (StoreRef.keeps_collection (hread _)) fun _ =>
      keeps_bind (keeps_traverse_within hP q _ r 0) fun _ => keeps_pure _

end Failing

/-- A query that fails leaves all stores as they were. -/
theorem stores_of_run_error {db : Nat} {query : Value} {f : Failure}
    (hrun : q.run db query e = .error f d) : d.stores = e.stores :=
  Action.stores_of_error (fun tx => keeps_scan_within (Action.isKeptWithin_stores e) q tx query) hrun

end Query
end RecordStore
