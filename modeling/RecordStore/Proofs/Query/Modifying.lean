import RecordStore.Proofs.Cursor.Interleaving
import RecordStore.Proofs.Query.Midway

/-!
Queries that modify the records of a collection which they scan by its own keys. A record that is written
back keeps its key, so no row ever moves, and what such a query does one by one is a simultaneous update
of the records that it selects in the collection as it was. What stands in the way of any of them makes
the query fail, and then nothing is changed.
-/

namespace RecordStore

open Effect

/-! ### The rows of a collection itself -/

/-- No row is selected twice. -/
theorem Scan.Selects.nodup {rows E : List Entry} {range : Option (KeyRange Value)}
    {descending distinct : Bool} (h : Selects rows range descending distinct E) : E.Nodup := by
  refine h.sorted.imp fun {a b} hlt => ?_
  cases descending with
  | false => exact OrderedRows.ne_of_lt Entry.isOrder hlt
  | true => exact (OrderedRows.ne_of_lt Entry.isOrder hlt).symm

namespace Collection

variable {c d : Collection} {name : String} {keying : Keying} {key record : Value}

theorem rows_none (c : Collection) :
    c.rows none = (c.records.map Prod.fst).map fun key => (key, key) := by
  simp [rows]

theorem mem_keys_of_mem_rows {row : Entry} (h : row ∈ c.rows none) : row.2 ∈ c.records.map Prod.fst := by
  rw [rows_none] at h
  obtain ⟨key, hkey, rfl⟩ := List.mem_map.1 h
  exact hkey

theorem WritesBack.isAscending (h : c.WritesBack name keying key record d) (hc : c.IsAscending) :
    d.IsAscending := by
  obtain ⟨k, hwrite⟩ := h.written
  have hd := isAscending_write hc name keying record (if keying.keyPath.isSome then .null else key) true
  rwa [hwrite] at hd

/-- No two different rows of a collection itself lead to one record. -/
theorem nodup_of_subset_rows {rows : List Entry} (hrows : ∀ row ∈ rows, row ∈ c.rows none)
    (hnodup : rows.Nodup) : (rows.map Prod.snd).Nodup := by
  have hsame : ∀ row ∈ rows, row = (row.2, row.2) := by
    intro row hrow
    have hmem := hrows row hrow
    rw [rows_none] at hmem
    obtain ⟨k, _, rfl⟩ := List.mem_map.1 hmem
    rfl
  apply List.Nodup.map_on _ hnodup
  intro a ha b hb heq
  rw [hsame a ha, hsame b hb, heq]

end Collection

namespace Cursor

variable {origin : Cursor}

/-- A cursor over a collection itself is safe, as long as the collection is in order. -/
theorem safeUnder_isAscending (hsource : origin.source = none) (keying : Keying) :
    origin.SafeUnder keying Collection.IsAscending where
  records _ hc := hc.records
  rows _ hc := hc.rows origin.source
  there _ _ _ hrow := Collection.mem_keys_of_mem_rows (hsource ▸ hrow)
  written _ _ _ _ _ hc hwrites := hwrites.isAscending hc

/-- To replace a record leaves all rows of a collection itself alone. -/
theorem steady_of_source (hsource : origin.source = none) (Γ : Collection → Prop) (row : Entry)
    (v : Value) : origin.Steady Γ row v := by
  intro c d _ _ _ hreplaces
  rw [hsource, Collection.rows_none, Collection.rows_none, hreplaces.keys]

end Cursor

namespace Query

variable {q : Query} {c d : Collection} {E : List Entry}

/-! ### The selected records -/

/-- The records that a query selects by some rows: it skips some rows, and of the records that the others
lead to it takes what its window takes of those that it accepts. -/
def chosen (q : Query) (c : Collection) (E : List Entry) : List (Bytes × Value) :=
  let accepted := q.accepted c (E.drop q.skip)
  match q.window with
  | none => accepted
  | some w => accepted.take w.take

theorem taken_skip (q : Query) (c : Collection) (E : List Entry) :
    q.taken q.skip c (E.drop q.skip) = q.chosen c E :=
  takeFrom_skip q _

theorem sublist_recordsOf (c : Collection) (rows : List Entry) :
    ((recordsOf c rows).map Prod.fst).Sublist (rows.map Prod.snd) := by
  induction rows with
  | nil => exact .slnil
  | cons row rest ih =>
      cases hv : c.view row.2 with
      | none => simpa [recordsOf, hv] using ih.cons row.2
      | some v => simpa [recordsOf, hv] using ih

/-- The records that are chosen are some of those that the rows lead to, in their order. -/
theorem sublist_chosen (q : Query) (c : Collection) (E : List Entry) :
    ((q.chosen c E).map Prod.fst).Sublist (E.map Prod.snd) := by
  have haccepted : ((q.accepted c (E.drop q.skip)).map Prod.fst).Sublist (E.map Prod.snd) :=
    (List.filter_sublist.map _).trans <|
      (sublist_recordsOf c _).trans ((List.drop_sublist _ _).map _)
  unfold chosen
  cases q.window with
  | none => exact haccepted
  | some w => exact ((List.take_sublist _ _).map _).trans haccepted

/-- What stands in the way of a query that modifies the records selected by some rows. -/
inductive IsHindered (q : Query) (c : Collection) (E : List Entry) : Prop
  /-- A filter fails for a record that is looked at before the window is full. -/
  | filter {pre post : List Entry} {row : Entry} {v : Value} {f : Failure}
    (hrows : E.drop q.skip = pre ++ row :: post)
    (hopen : q.isFull (q.skip + (q.accepted c pre).length) = false) (hv : c.view row.2 = some v)
    (hfails : Filter.allHold q.filters v = .error f)
  /-- The rule fails for a selected record: one of its functions does, or the record is no mapping. -/
  | rule {r : Bytes × Value} {f : Failure} (hr : r ∈ q.chosen c E) (hfails : q.modified r.2 = .error f)
  /-- A selected record that is to be modified is no mapping. -/
  | shape {r : Bytes × Value} (hr : r ∈ q.chosen c E) (hwriting : q.isWriting = true)
    (hshape : ∀ members, r.2 ≠ .dict members)
  /-- The function of the query fails for a modified record. -/
  | mapper {r : Bytes × Value} {m : Value} {f : Failure} (hr : r ∈ q.chosen c E)
    (hm : q.modified r.2 = .ok m) (hfails : q.map m = .error f)
  /-- A modified record does not have its key any more. -/
  | key {r : Bytes × Value} {m : Value} {header : Header} {path : KeyPath} (hr : r ∈ q.chosen c E)
    (hwriting : q.isWriting = true) (hm : q.modified r.2 = .ok m) (hheader : c.header = some header)
    (hpath : header.keying.keyPath = some path)
    (hchanged : ∀ found, path.find? m = some found → found.encodeKey ≠ .ok r.1)
  /-- A modified record has an index key that leads to another record in a unique index, once the
  selected records before it were modified. -/
  | clash {pre post : List (Bytes × Value)} {r : Bytes × Value} {i : Index} {v : Value}
    {keys : List Bytes} {k other : Bytes} (hchosen : q.chosen c E = pre ++ r :: post)
    (hwriting : q.isWriting = true) (hi : i ∈ c.indexes) (hunique : i.spec.unique = true)
    (hv : q.remade r.2 = .ok v) (hkeys : i.spec.keysFor v = .ok keys) (hk : k ∈ keys)
    (hleads : q.LeadsTo i pre k other) (hother : other ≠ r.1)

/-- What a query has done with the rows that it selected by, it could do. -/
theorem Finishes.not_isHindered {header : Header} {results : List Value}
    (hheader : c.header = some header)
    (h : q.Finishes header.keying c [] q.skip (E.drop q.skip) results d) : ¬q.IsHindered c E := by
  have hadmits (r : Bytes × Value) (hr : r ∈ q.chosen c E) :
      ∃ pre, q.Admits header.keying c pre r := by
    rw [← taken_skip] at hr
    obtain ⟨pre, post, hsplit⟩ := List.append_of_mem hr
    exact ⟨_, h.admits pre r post hsplit⟩
  intro hhindered
  cases hhindered with
  | filter hrows hopen hv hfails =>
      obtain ⟨v', hv', hholds⟩ := h.filters _ _ _ hrows hopen
      cases hv.symm.trans hv'
      cases hfails.symm.trans hholds
  | rule hr hfails =>
      obtain ⟨_, m, _, hm, _⟩ := (hadmits _ hr).imp fun _ h => h.made
      cases hfails.symm.trans hm
  | shape hr hwriting hshape =>
      obtain ⟨_, m, _, hm, _⟩ := (hadmits _ hr).imp fun _ h => h.made
      obtain ⟨rule, hrule, hne⟩ := (Option.any_eq_true _ _).1 hwriting
      cases rule with
      | nil => cases hne
      | cons a rest =>
          obtain ⟨members, hmembers⟩ := Rule.exists_dict_of_apply (modified_of_rule hrule _ ▸ hm)
          exact hshape members hmembers
  | mapper hr hm hfails =>
      obtain ⟨_, m', w, hm', hw⟩ := (hadmits _ hr).imp fun _ h => h.made
      cases hm.symm.trans hm'
      cases hfails.symm.trans hw
  | key hr hwriting hm hheader' hpath hchanged =>
      cases hheader.symm.trans hheader'
      obtain ⟨_, hrecord⟩ := hadmits _ hr
      obtain ⟨found, hfound, hencode⟩ := hrecord.kept hwriting _ hpath _ hm
      exact hchanged found hfound hencode
  | clash hchosen hwriting hi hunique hv hkeys hk hleads hother =>
      have hrecord := h.admits _ _ _ ((taken_skip q c E).trans hchosen)
      exact hother (hrecord.apart hwriting _ hi hunique _ _ hv hkeys _ hk _ hleads)

/-! ### From the first row on -/

section Whole

variable {name : String} {keying : Keying} {origin cur : Cursor} {Γ : Collection → Prop}
  {results : List Value} {rule : Rule} {rest : List Entry}

/-- A query that is midway and has rows to be skipped comes to be midway behind them. -/
theorem IsMidway.skip (hkeyOnly : origin.keyOnly = false) (hsafe : origin.SafeUnder keying Γ)
    (h : q.IsMidway origin Γ c [] cur c rest) (hpassage : Passage q name keying cur 0 c results d) :
    ∃ next, q.IsMidway origin Γ c [] next c (rest.drop q.skip) ∧
      Passage q name keying next q.skip c results d := by
  cases hskip : q.skip with
  | zero => exact ⟨cur, h, hpassage⟩
  | succ n =>
      have hpos : 0 < q.skip := by omega
      cases hpassage with
      | done hdone =>
          -- no row is left, and none is to be skipped
          have hnil : rest = [] := by
            cases rest with
            | nil => rfl
            | cons row rest => rw [h.faces.1.isDone] at hdone; cases hdone
          subst hnil
          exact ⟨cur, by rwa [List.drop_nil], .done hdone⟩
      | skip hdone _ hstep hrest =>
          cases rest with
          | nil => rw [show cur.isDone = true from h.faces] at hdone; cases hdone
          | cons row rest =>
              rw [← hskip]
              exact ⟨_, h.step hkeyOnly hsafe hpos hstep, hrest⟩
      | full _ hle => omega
      | pass _ hle => omega
      | take _ hle => omega

/-- A query whose cursor came to its first row and that has a passage from there has done what it has to
with the rows of its cursor. -/
theorem finishes_of_start (hkeyOnly : origin.keyOnly = false) (hstate : q.state ≠ .keys)
    (hpure : ∀ f ∈ q.filters, f.IsPure) (hsafe : origin.SafeUnder keying Γ) (hrule : q.rule = some rule)
    (hproper : rule.IsProper) (hgenerates : keying.GeneratesSingly)
    (hdates : ∀ r ∈ c.records, r.1.IsDateFree) (hc : Γ c) (hdone : origin.isDone = false)
    (hposition : origin.position = none) (honce : ((origin.visits c).map Prod.snd).Nodup)
    (hsteady : ∀ r ∈ q.chosen c (origin.visits c), ∀ row ∈ origin.visits c, row.2 = r.1 →
      ∀ v, q.remade r.2 = .ok v → origin.Steady Γ row v)
    (hstep : origin.step c 1 = (.ok (), cur)) (hpassage : Passage q name keying cur 0 c results d) :
    q.Finishes keying c [] q.skip ((origin.visits c).drop q.skip) results d := by
  have hrest : Scan.remaining origin.conditions origin.direction origin.position (c.rows origin.source) =
      origin.visits c := by
    rw [hposition]
    rfl
  obtain ⟨hsame, hfaces⟩ := Cursor.faces_of_step ⟨rfl, rfl, rfl, rfl⟩ hdone hkeyOnly (hsafe.rows c hc)
    (hsafe.there c hc) hrest hstep
  -- nothing was modified yet: the cursor faces all rows that it selects
  have hmidway : q.IsMidway origin Γ c [] cur c (origin.visits c) :=
    ⟨after_nil q c, hc, hsame, hfaces, fun _ _ => List.not_mem_nil, honce⟩
  obtain ⟨next, hnext, hpassage'⟩ := hmidway.skip hkeyOnly hsafe hpassage
  refine finishes_of_passage hkeyOnly hstate hpure hsafe hrule hproper hgenerates hdates hpassage'
    le_rfl hnext fun r hr row hrow => ?_
  rw [taken_skip] at hr
  exact hsteady r hr row (List.mem_of_mem_drop hrow)

end Whole

/-! ### Queries as a whole -/

section Runs

variable {e : Engine} {db : Nat} {name : String} {query : Value} {range : Option (KeyRange Value)}
  {rule : Rule}

/-- A query is run as a simultaneous update of the records in a collection that are chosen by some rows,
none of them twice. If it succeeds, the collection that is kept is the one before, updated at these
records: each of their keys has the clone of what the rule makes of its record, every other key has what
it had, and there are no other keys. The results are what the query yields for the records, in their
order, and nothing else has changed. Whatever hinders the query makes it fail, and when it fails all
stores are as before. -/
structure RunsAtOnce (q : Query) (db : Nat) (query : Value) (e : Engine) (name : String)
    (c : Collection) (E : List Entry) : Prop where
  once : ((q.chosen c E).map Prod.fst).Nodup
  success : ∀ result d, q.run db query e = .ok result d → ∃ results c', result = .results results ∧
    q.Updates c (q.chosen c E) c' ∧
    List.Forall₂ (fun r w => q.outcome r.2 = .ok w) (q.chosen c E) results ∧
    (e.store (e.connection db).path).ChangedAt name c' (d.store (e.connection db).path) ∧
    ∀ other, other ≠ (e.connection db).path → d.store other = e.store other
  failure : ∀ f d, q.run db query e = .error f d → d.stores = e.stores
  hindered : q.IsHindered c E → ∃ f d, q.run db query e = .error f d

/-- A query with a rule is run as a simultaneous update, if its cursor is safe, its rows lead to
different records, and no record that it modifies moves to the rows ahead. -/
theorem runsAtOnce_of_steady (he : e.IsReachable) (hcollection : q.collection = .text name)
    (hstate : q.state = .write) (hrule : q.rule = some rule) (hproper : rule.IsProper)
    (hpure : ∀ f ∈ q.filters, f.IsPure) (hrange : KeyRange.ofQuery query = .ok range)
    (hc : (e.store (e.connection db).path).contents.get name = c)
    (hdates : ∀ r ∈ c.records, r.1.IsDateFree) {source : Option String}
    (hsource : q.source? c = some source) {Γ : Collection → Prop} (hΓ : Γ c)
    (hsafe : ∀ header ∈ c.header, (q.cursor source range).SafeUnder header.keying Γ)
    (honce : (((q.cursor source range).visits c).map Prod.snd).Nodup)
    (hsteady : ∀ r ∈ q.chosen c ((q.cursor source range).visits c),
      ∀ row ∈ (q.cursor source range).visits c, row.2 = r.1 → ∀ v, q.remade r.2 = .ok v →
        (q.cursor source range).Steady Γ row v) :
    q.RunsAtOnce db query e name c ((q.cursor source range).visits c) := by
  have hkeys : q.state ≠ .keys := by rw [hstate]; exact nofun
  have hcount : q.state ≠ .count := by rw [hstate]; exact nofun
  have hregular : c.IsRegular := hc ▸ (Engine.isRegular_of_isReachable he).stores _ name
  have hfinishes (result : QueryResult) (d : Engine) (hrun : q.run db query e = .ok result d) :
      ∃ header results c', c.header = some header ∧ result = .results results ∧
        q.Finishes header.keying c [] q.skip (((q.cursor source range).visits c).drop q.skip) results
          c' ∧
        (e.store (e.connection db).path).ChangedAt name c' (d.store (e.connection db).path) ∧
        ∀ other, other ≠ (e.connection db).path → d.store other = e.store other := by
    obtain ⟨header, source', cur, results, c', hheader, hscanned, hstep, hpassage, hresult, hchanged,
      hothers⟩ := exists_passage_of_run hcollection hcount hrange hrun
    rw [hc] at hheader hscanned hstep hpassage
    cases hsource.symm.trans hscanned
    have hdone := finishes_of_start (beq_eq_false_iff_ne.2 hkeys) hkeys hpure (hsafe header hheader) hrule
      hproper (hregular.keying header hheader) hdates hΓ rfl rfl honce hsteady hstep hpassage
    exact ⟨header, results, c', hheader, hresult, hdone, hchanged, hothers⟩
  refine ⟨honce.sublist (sublist_chosen q c _), fun result d hrun => ?_,
    fun f d hrun => stores_of_run_error hrun, fun hhindered => ?_⟩
  · obtain ⟨header, results, c', _, hresult, hdone, hchanged⟩ := hfinishes result d hrun
    have hafter := hdone.after
    have hresults := hdone.results
    rw [taken_skip] at hafter hresults
    exact ⟨results, c', hresult, hafter.toUpdates, hresults, hchanged⟩
  · cases hrun : q.run db query e with
    | error f d => exact ⟨f, d, rfl⟩
    | ok result d =>
        -- a success has come past every record that could have hindered it
        obtain ⟨header, _, _, hheader, _, hdone, _⟩ := hfinishes result d hrun
        exact absurd hhindered (hdone.not_isHindered hheader)

end Runs

/-! ### Queries that make people older -/

/-- A collection whose records have their keys in a field, as the upgrade that makes it obtains it. -/
def peopleMade : StoreRef := ⟨0, "people", ⟨some (.single "id"), false⟩⟩

def person (id age : Int) : Value := .dict [(.text "id", .int id), (.text "age", .int age)]

/-- An upgrade that makes an index over ages and stores three people, no two of one age. -/
def peopleStored : Course :=
  Course.initial
    |>.next (.beginOpen "path" (.int 1) none)
    |>.next (.createCollection 0 (.text "people") (.text "id") (.bool false))
    |>.next (.createIndex peopleMade (.text "age") (.text "age") (.bool true) (.bool false))
    |>.next (.put peopleMade (person 1 20) .null)
    |>.next (.put peopleMade (person 2 30) .null)
    |>.next (.put peopleMade (person 3 40) .null)

/-- The run once the upgrade is over. -/
def peopleUpgraded : Course := peopleStored.next (.conclude (.upgrade 0 0 0 1) (.ok ()))

/-- A store with three people. -/
def peopleKept : Engine := peopleUpgraded.engine

/-- Its collection. -/
def people : Collection := (peopleKept.store "path").contents.get "people"

/-- A rule that makes people so many years older. -/
def aging (years : Int) : Rule := [(.text "age", .callable (.add (some "age") years))]

/-- A query over the collection or its index that makes people of thirty and more years older. -/
def older (index : Value) (descending : Bool) (years : Int) : Query :=
  { ofRange (.text "people") index .null with
    state := .write, descending := descending
    filters := [.predicate (.compare (some "age") .gte 30)]
    rule := some (aging years) }

theorem isReached_peopleUpgraded : peopleUpgraded.IsReached := by
  have hstored : peopleStored.IsReached := by
    unfold peopleStored
    refine .next (.next (.next (.next (.next (.next .start ?opening) ?creation)
      (Course.allows_of_mem rfl ?_)) (Course.allows_of_mem rfl ?_)) (Course.allows_of_mem rfl ?_))
      (Course.allows_of_mem rfl ?_)
    case opening => constructor <;> simp [EngineCall.handle?, EngineCall.commits?]
    case creation =>
      refine ⟨by simp [EngineCall.handle?], by simp [EngineCall.commits?], ?_⟩
      rintro _ _ _ _ ⟨⟩ path h
      cases h
      have hsegments : KeyPath.segments "id" = ["id"] := by decide +kernel
      intro s hs
      rw [hsegments, List.mem_singleton] at hs
      subst hs
      simp [Document.IsTag, Document.dateTag, Document.bytesTag, Document.setTag]
    all_goals decide +kernel
  have hgivenUp : peopleStored.givenUp = [] := by decide +kernel
  refine .next hstored ⟨by simp [EngineCall.handle?], fun _ _ _ => ?_, by simp⟩
  simp [hgivenUp]

theorem isReachable_peopleKept : peopleKept.IsReachable :=
  Course.isReachable_engine isReached_peopleUpgraded

theorem isProper_aging (years : Int) : (aging years).IsProper := by
  simp [aging, Rule.IsProper, Callable.IsProper]

theorem isPure_older {index : Value} {descending : Bool} {years : Int} :
    ∀ f ∈ (older index descending years).filters, f.IsPure := by
  intro f hf
  obtain rfl := List.mem_singleton.1 hf
  apply Filter.isPure_predicate
  rintro r o s ⟨⟩
  rfl

theorem isDateFree_people : ∀ r ∈ people.records, r.1.IsDateFree := by
  have hints : ∀ r ∈ people.records,
      ∃ n ∈ List.range 4, (Value.int n).encodeKey.toOption = some r.1 := by decide +kernel
  intro r hr
  obtain ⟨n, _, hn⟩ := hints r hr
  exact ⟨.int n, trivial, eq_ok_of_toOption hn⟩

end Query
end RecordStore
