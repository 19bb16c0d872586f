import RecordStore.Proofs.Engine.AllContents
import RecordStore.Proofs.Engine.Refinement

/-!
Data outside the catalog. A deleted collection takes all its data with it, and while only handles of
collections that are in the catalog are used for writing, no record and no index is under any other
name. A handle outlives its collection, though, and what is written through it then stays under the
name, also for a later collection of that name.
-/

namespace RecordStore

open Effect

/-! ### Changes -/

namespace Collection

/-- There is no record and no index, so no index entry either. -/
def IsClear (c : Collection) : Prop := c.records = [] ∧ c.indexes = []

theorem isClear_empty : empty.IsClear := ⟨rfl, rfl⟩

theorem SameData.isClear {c d : Collection} (h : c.SameData d) (hc : c.IsClear) : d.IsClear :=
  ⟨h.records.trans hc.1, h.indexes.trans hc.2⟩

end Collection

/-- A change puts data under a name that is not in the catalog. -/
def Change.Strays (name : String) (c : Collection) : Change → Prop
  | write keying value key overwrite =>
    c.header = none ∧ ∃ k, (c.write name keying value key overwrite).1 = .ok k
  | createIndex _ _ => c.header = none
  | _ => False

/-- Where there is no data outside the catalog a change leaves it so, or strays. -/
theorem Change.isClear_apply_iff {c : Collection} (hc : c.header = none → c.IsClear) (name : String)
    (change : Change) : ((change.apply name c).header = none → (change.apply name c).IsClear) ↔
      ¬change.Strays name c := by
  cases change with
  | create keying => exact iff_of_true nofun not_false
  | drop => exact iff_of_true (fun _ => Collection.isClear_empty) not_false
  | deleteIndex index =>
      refine iff_of_true (fun hnone => ⟨(hc hnone).1, ?_⟩) not_false
      exact congrArg (List.filter _) (hc hnone).2
  | delete range =>
      refine iff_of_true (fun hnone => ⟨?_, ?_⟩) not_false
      · exact congrArg (List.filter _) (hc hnone).1
      · exact congrArg (List.map _) (hc hnone).2
  | clear => exact iff_of_true (fun hnone => ⟨rfl, congrArg (List.map _) (hc hnone).2⟩) not_false
  | createIndex index spec =>
      have hheader : (c.createIndex name index spec).2.header = c.header :=
        Collection.header_createIndex (Prod.mk.eta).symm
      change ((c.createIndex name index spec).2.header = none → _) ↔ _
      rw [hheader]
      refine ⟨fun hclear hstrays => ?_, fun hstays hnone => absurd hnone hstays⟩
      -- an index is made, since there is none of its name
      have hmade : c.createIndex name index spec = (_, _) := (Prod.mk.eta).symm
      obtain ⟨hsome, _⟩ | ⟨_, i, _, hd, _⟩ := Collection.createIndex_cases hmade
      · rw [Collection.index?, (hc hstrays).2] at hsome
        cases hsome
      · have hnone := (hclear hstrays).2
        change (c.createIndex name index spec).2.indexes = [] at hnone
        rw [hd, (hc hstrays).2] at hnone
        cases hnone
  | write keying value key overwrite =>
      cases hw : c.write name keying value key overwrite with
      | mk r d =>
          have hsome := Collection.header_isSome_write hw
          have hnone : d.header = none ↔ c.header = none := by
            rw [← Option.isNone_iff_eq_none, ← Option.isNone_iff_eq_none, ← Option.not_isSome,
              ← Option.not_isSome, hsome]
          rw [Change.apply, Change.Strays, hw, hnone]
          rcases Collection.write_cases hw with ⟨f, rfl, hsame⟩ | ⟨k, _, _, c', p, _, rfl, _, _, _, rfl⟩
          · refine iff_of_true (fun h => hsame.isClear (hc h)) ?_
            rintro ⟨_, k, hk⟩
            cases hk
          · refine ⟨fun hclear hstrays => ?_, fun hstays h => absurd ⟨h, k, rfl⟩ hstays⟩
            have hrecords : OrderedRows.insert Bytes.lt p.key p.text c'.records = [] :=
              (hclear hstrays.1).1
            have hwritten := OrderedRows.lookup_insert_self Bytes.isOrder p.key p.text c'.records
            rw [hrecords] at hwritten
            cases hwritten

/-- Data is only under names that are in the catalog. -/
def Contents.IsCatalogued (s : Contents) : Prop :=
  ∀ name, s.contains name = false → (s.get name).IsClear

theorem Contents.isCatalogued_empty : empty.IsCatalogued := fun _ _ => Collection.isClear_empty

theorem Contents.contains_eq_false_iff {s : Contents} {name : String} :
    s.contains name = false ↔ (s.get name).header = none := by
  rw [contains, Option.isSome_eq_false_iff, Option.isNone_iff_eq_none]

theorem Contents.isCatalogued_changed_iff {s : Contents} (hs : s.IsCatalogued)
    (change : Option (String × Change)) : (s.changed change).IsCatalogued ↔
      ∀ name made, change = some (name, made) → ¬made.Strays name (s.get name) := by
  cases change with
  | none => exact iff_of_true hs nofun
  | some change =>
      obtain ⟨name, made⟩ := change
      have hself : (s.changed (some (name, made))).get name = made.apply name (s.get name) :=
        get_set_self s name _
      have hmade := Change.isClear_apply_iff (fun h => hs name (contains_eq_false_iff.2 h)) name made
      constructor
      · rintro hcatalogued _ _ ⟨⟩
        refine hmade.1 fun hnone => ?_
        rw [← hself]
        exact hcatalogued name (contains_eq_false_iff.2 (hself ▸ hnone))
      · intro hstays other hother
        rw [contains_eq_false_iff] at hother
        by_cases hname : other = name
        · subst hname
          rw [hself] at hother ⊢
          exact hmade.2 (hstays other made rfl) hother
        · have hsame : (s.changed (some (name, made))).get other = s.get other :=
            get_set_of_ne hname _ _
          rw [hsame] at hother ⊢
          exact hs other (contains_eq_false_iff.2 hother)

/-- No data is outside the catalog, neither of a store that is kept nor of one that is under way. -/
abbrev Engine.IsCatalogued (e : Engine) : Prop := e.AllContents Contents.IsCatalogued

/-! ### Calls that stray -/

/-- The handle through which a call puts data under a name. -/
def EngineCall.fills? : EngineCall → Option StoreRef
  | .createIndex r _ _ _ _ | .add r _ _ | .put r _ _ => some r
  | .updateCursor c _ => some c.store
  | _ => none

/-- A call succeeds in putting data under a name that is not in the catalog: the collection of its
handle is deleted. -/
def EngineCall.IsStray (e : Engine) (c : EngineCall) : Prop :=
  ∃ r s, c.fills? = some r ∧ e.draft? r.transaction = some s ∧ s.contents.contains r.name = false ∧
    ∃ obtained d, c.run e = .ok obtained d

section Straying

variable {e : Engine} {s : Store} {r : StoreRef}

theorem Effect.obtainsNone_ok_iff {α : Type} {a : Action α} :
    (∃ obtained d, EngineCall.obtainsNone a e = .ok obtained d) ↔ ∃ x d, a e = .ok x d := by
  constructor
  · rintro ⟨obtained, d, h⟩
    obtain ⟨x, t, ha, _⟩ := exists_of_bind h
    exact ⟨x, t, ha⟩
  · rintro ⟨x, d, ha⟩
    exact ⟨none, d, bind_of_ok ha _⟩

theorem CursorRef.update_cases (c : CursorRef) (value : Value) (e : Engine) :
    c.writing? value = none ∧ (∃ f, c.update value e = .error f e) ∨
      ∃ key, c.writing? value = some (c.store.writing value key true) ∧
        c.update value e = c.store.put value key e := by
  unfold writing? update ensurePositioned
  cases c.cursor.keyOnly with
  | true => exact .inl ⟨rfl, _, rfl⟩
  | false =>
      cases c.cursor.isDone with
      | true => exact .inl ⟨rfl, _, rfl⟩
      | false =>
          cases c.store.keying.keyPath with
          | none => exact .inr ⟨_, rfl, rfl⟩
          | some path =>
              have hchecked : (ofExcept (Cursor.checkKept path c.cursor.primaryKey value) :
                  Action Unit) e = ending (Cursor.checkKept path c.cursor.primaryKey value) e :=
                ofExcept_run _ e
              cases hkept : Cursor.checkKept path c.cursor.primaryKey value with
              | error f =>
                  refine .inl ⟨by simp only [hkept]; rfl, f, bind_of_error (hchecked.trans ?_) _⟩
                  rw [hkept]
                  rfl
              | ok u =>
                  refine .inr ⟨.null, by simp only [hkept]; rfl, bind_of_ok (x := u) (hchecked.trans ?_) _⟩
                  rw [hkept]
                  rfl

/-- A call that fills nothing does not stray. -/
theorem EngineCall.not_strays_of_fills {c : EngineCall} (hc : c.fills? = none) {mode : Mode}
    {k : Contents} {name : String} {made : Change} (hmade : c.change? mode k = some (name, made)) :
    ¬made.Strays name (k.get name) := by
  have hdeletion {r : StoreRef} {query : Value} (h : r.deletion? query = some (name, made)) :
      ¬made.Strays name (k.get name) := by
    unfold StoreRef.deletion? at h
    split at h
    · cases h
    · split at h
      · cases h
      · cases h
        exact not_false
  cases c with
  | createCollection tx name keyPath autoIncrement =>
      change k.creation? name keyPath autoIncrement = _ at hmade
      unfold Contents.creation? at hmade
      split at hmade
      · split at hmade
        · cases hmade
        · cases hmade
          exact not_false
      · cases hmade
  | deleteCollection tx name =>
      change (if k.contains name.display then some (name.display, Change.drop) else none) = _ at hmade
      split at hmade
      · cases hmade
        exact not_false
      · cases hmade
  | deleteIndex r index =>
      change (if mode = .versionchange then r.indexDeletion? index k else none) = _ at hmade
      split at hmade
      · obtain ⟨i, _, hi⟩ := Option.map_eq_some_iff.1 hmade
        cases hi
        exact not_false
      · cases hmade
  | delete r query => exact hdeletion hmade
  | clear r =>
      cases hmade
      exact not_false
  | deleteAtCursor c =>
      change c.deletion? = _ at hmade
      unfold CursorRef.deletion? at hmade
      split at hmade
      · cases hmade
      · exact hdeletion hmade
  | createIndex _ _ _ _ _ | add _ _ _ | put _ _ _ | updateCursor _ _ => cases hc
  | _ => cases hmade

section

variable (hs : e.draft? r.transaction = some s)

include hs

theorem StoreRef.write_ok_iff (hmode : (e.transaction r.transaction).mode ≠ .readonly)
    (value key : Value) (overwrite : Bool) :
    (∃ k d, r.write value key overwrite e = .ok k d) ↔
      ∃ k, ((s.contents.get r.name).write r.name r.keying value key overwrite).1 = .ok k := by
  rw [write_of_draft hs hmode]
  constructor
  · rintro ⟨k, d, h⟩
    exact ⟨k, (ending_eq_ok_iff.1 h).1⟩
  · rintro ⟨k, hk⟩
    exact ⟨k, _, ending_eq_ok_iff.2 ⟨hk, rfl⟩⟩

theorem StoreRef.createIndex_cases (name keyPath unique multiEntry : Value) :
    (if (e.transaction r.transaction).mode = .versionchange then
        r.indexCreation? name keyPath unique multiEntry else none) = none ∧
      (∃ f, r.createIndex name keyPath unique multiEntry e = .error f e) ∨
    ∃ spec, (if (e.transaction r.transaction).mode = .versionchange then
        r.indexCreation? name keyPath unique multiEntry else none) =
          some (r.name, .createIndex name.display spec) ∧
      ∀ c, (s.contents.get r.name).createIndex r.name name.display spec = (.ok (), c) →
        ∃ i d, r.createIndex name keyPath unique multiEntry e = .ok i d := by
  unfold createIndex indexCreation?
  have htransaction : Action.transaction r.transaction e = .ok (e.transaction r.transaction) e := rfl
  rw [bind_of_ok htransaction]
  by_cases hmode : (e.transaction r.transaction).mode = .versionchange
  · rw [if_pos hmode, if_neg (not_not_intro hmode)]
    have hread : (ofExcept (Key.storeResult (KeyPath.ofValue keyPath)) : Action (Option KeyPath)) e =
      ending (Key.storeResult (KeyPath.ofValue keyPath)) e := ofExcept_run _ e
    cases hpath : KeyPath.ofValue keyPath with
    | error f =>
        rw [hpath] at hread
        exact .inl ⟨rfl, _, bind_of_error hread _⟩
    | ok path =>
        rw [hpath] at hread
        dsimp only
        by_cases hmulti : (multiEntry.isTrue && path.any KeyPath.isCompound) = true
        · rw [if_pos hmulti]
          exact .inl ⟨rfl, _, (bind_of_ok hread _).trans (congrFun (if_pos hmulti) e)⟩
        · rw [if_neg hmulti]
          refine .inr ⟨_, rfl, fun c hc => ?_⟩
          have hchange : r.change (fun c => c.createIndex r.name name.display
              ⟨path, unique.isTrue, multiEntry.isTrue⟩) e = .ok () (e.redraft r.transaction
                { s with contents := s.contents.set r.name c }) := by
            rw [change_of_draft hs, hc]
            rfl
          refine ⟨⟨r, name.display, path, unique.isTrue, multiEntry.isTrue⟩,
            e.redraft r.transaction { s with contents := s.contents.set r.name c }, ?_⟩
          rw [bind_of_ok (x := path) (t := e) hread, if_neg hmulti]
          exact bind_of_ok hchange _
  · rw [if_neg hmode, if_pos hmode]
    exact .inl ⟨rfl, _, rfl⟩

namespace EngineCall

/-- A write strays if its change does. -/
theorem isStray_write_iff (hmode : (e.transaction r.transaction).mode ≠ .readonly)
    {c : EngineCall} (hc : c.fills? = some r) {value key : Value} {overwrite : Bool}
    (hchange : c.change? (e.transaction r.transaction).mode s.contents =
      some (r.writing value key overwrite))
    (hrun : (∃ obtained d, c.run e = .ok obtained d) ↔
      ∃ k d, r.write value key overwrite e = .ok k d) :
    c.IsStray e ↔ ∃ name made, c.change? (e.transaction r.transaction).mode s.contents =
      some (name, made) ∧ made.Strays name (s.contents.get name) := by
  rw [StoreRef.write_ok_iff hs hmode] at hrun
  constructor
  · rintro ⟨_, _, hr, hdraft, hname, hok⟩
    cases hc.symm.trans hr
    cases hs.symm.trans hdraft
    exact ⟨_, _, hchange, Contents.contains_eq_false_iff.1 hname, hrun.1 hok⟩
  · rintro ⟨_, _, hmade, hstrays⟩
    cases hchange.symm.trans hmade
    exact ⟨r, s, hc, hs, Contents.contains_eq_false_iff.2 hstrays.1, hrun.2 hstrays.2⟩

end EngineCall

end

namespace EngineCall

/-- A call through a transaction with a draft strays if its change does. -/
theorem isStray_iff {tx : Nat} {c : EngineCall} (hc : c.through? = some tx) {s : Store}
    (hs : e.draft? tx = some s) (hmode : (e.transaction tx).mode ≠ .readonly)
    (hcatalogued : s.contents.IsCatalogued) :
    c.IsStray e ↔ ∃ name made, c.change? (e.transaction tx).mode s.contents = some (name, made) ∧
      made.Strays name (s.contents.get name) := by
  cases hfills : c.fills? with
  | none =>
      -- a call that fills nothing makes no data, so neither side holds
      refine iff_of_false ?_ ?_
      · rintro ⟨_, _, hr, _⟩
        cases hfills.symm.trans hr
      · rintro ⟨name, made, hmade, hstrays⟩
        exact not_strays_of_fills hfills hmade hstrays
  | some r =>
      cases c with
      | add r value key =>
          cases hc
          exact isStray_write_iff hs hmode rfl rfl Effect.obtainsNone_ok_iff
      | put r value key =>
          cases hc
          exact isStray_write_iff hs hmode rfl rfl Effect.obtainsNone_ok_iff
      | updateCursor c value =>
          cases hc
          rcases c.update_cases value e with ⟨hnone, f, hfails⟩ | ⟨key, hwriting, hupdate⟩
          · refine iff_of_false ?_ ?_
            · rintro ⟨_, _, _, _, _, hok⟩
              obtain ⟨_, _, hok⟩ := Effect.obtainsNone_ok_iff.1 hok
              cases hfails.symm.trans hok
            · rintro ⟨name, made, hmade, _⟩
              cases hnone.symm.trans hmade
          · refine isStray_write_iff hs hmode rfl hwriting (Effect.obtainsNone_ok_iff.trans ?_)
            rw [hupdate]
            rfl
      | createIndex r name keyPath unique multiEntry =>
          cases hc
          rcases StoreRef.createIndex_cases hs name keyPath unique multiEntry with
            ⟨hnone, f, hfails⟩ | ⟨spec, hmade, hmakes⟩
          · refine iff_of_false ?_ ?_
            · rintro ⟨_, _, _, _, _, hok⟩
              obtain ⟨_, _, hok⟩ := Effect.obtainsNone_ok_iff.1 hok
              cases hfails.symm.trans hok
            · rintro ⟨_, _, hmade, _⟩
              cases hnone.symm.trans hmade
          · constructor
            · rintro ⟨_, _, ⟨⟩, hdraft, hname, _⟩
              cases hs.symm.trans hdraft
              exact ⟨_, _, hmade, Contents.contains_eq_false_iff.1 hname⟩
            · rintro ⟨_, _, hmade', hstrays⟩
              cases hmade.symm.trans hmade'
              have hname := Contents.contains_eq_false_iff.2 hstrays
              refine ⟨r, s, rfl, hs, hname, Effect.obtainsNone_ok_iff.2 ?_⟩
              -- there is nothing under the name that could stand against an index
              refine hmakes _ (Prod.ext ?_ rfl)
              obtain ⟨hrecords, hindexes⟩ := hcatalogued r.name hname
              unfold Collection.createIndex Collection.index?
              rw [hindexes, hrecords]
              rfl
      | _ => cases hfills

/-- From a state without data outside the catalog a call leads to one, or strays. -/
theorem isCatalogued_run_iff (he : e.IsReachable) (hcatalogued : e.IsCatalogued) (c : EngineCall) :
    (c.run.after e).IsCatalogued ↔ ¬c.IsStray e := by
  cases hc : c.through? with
  | none =>
      refine iff_of_true
        ((allContents_run_of_not_through Contents.isCatalogued_empty hc).after hcatalogued) ?_
      rintro ⟨r, _, hr, _⟩
      cases c with
      | createIndex _ _ _ _ _ | add _ _ _ | put _ _ _ | updateCursor _ _ => cases hc
      | _ => cases hr
  | some tx =>
      cases hs : e.draft? tx with
      | none =>
          -- without a draft the call can neither write nor stray
          refine iff_of_true (allContents_run_of_no_draft hcatalogued hc hs) ?_
          rintro ⟨r, s, hr, hdraft, _⟩
          have htx : r.transaction = tx := by
            cases c with
            | createIndex _ _ _ _ _ | add _ _ _ | put _ _ _ | updateCursor _ _ => cases hr; cases hc; rfl
            | _ => cases hr
          rw [htx, hs] at hdraft
          cases hdraft
      | some s =>
          have hmode := (Engine.isOrderly_of_isReachable he).mode_ne_readonly hs
          refine (allContents_run_iff_of_draft he hcatalogued hc hs).trans ?_
          rw [isStray_iff hc hs hmode (hcatalogued.draft hs),
            Contents.isCatalogued_changed_iff (hcatalogued.draft hs)]
          simp only [not_exists, not_and]

end EngineCall

end Straying

/-! ### Runs -/

namespace Action

variable {e d : Engine} {tx : Nat} {s : Store}

/-- A handle has the name that it was asked for. -/
theorem name_of_openCollection {name : Value} {r : StoreRef} (h : openCollection tx name e = .ok r d) :
    r.name = name.display := by
  have hread : (read tx).Keeps fun _ => True := keeps_read fun _ _ _ _ => trivial
  have hopen (scope : List String) :
      (openIn tx name scope).Ensures (fun _ => True) fun r => r.name = name.display := by
    refine keeps_bind (keeps_ensureActive tx) fun _ => ?_
    cases name.unhashable? with
    | some k => exact meets_fail (keeps_throw _)
    | none =>
        refine meets_guard (keeps_throw _) fun _ => keeps_bind hread fun s => ?_
        cases (s.contents.get name.display).header with
        | none => exact keeps_throw _
        | some header => exact meets_pure fun _ _ => ⟨trivial, rfl⟩
  have hnamed : (openCollection tx name).Ensures (fun _ => True) fun r => r.name = name.display := by
    rw [openCollection_eq]
    refine keeps_bind (keeps_transaction tx) fun t => ?_
    refine keeps_bind (meets_ite (fun _ => keeps_collectionNames hread) fun _ => keeps_pure _)
      fun scope => ?_
    exact keeps_bind (keeps_modify fun _ _ => trivial) fun _ => hopen scope
  exact (hnamed.of_ok trivial h).2

/-- A collection is created only if there is none of its name. -/
theorem exists_of_createCollection (hs : e.draft? tx = some s) {name keyPath autoIncrement : Value}
    {r : StoreRef} (h : createCollection tx name keyPath autoIncrement e = .ok r d) :
    s.contents.contains r.name = false ∧ ∃ keying,
      d.draft? tx = some { s with contents := s.contents.create r.name keying } := by
  unfold createCollection at h
  cases name with
  | text name =>
      obtain ⟨_, _, hname, h⟩ := exists_of_bind h
      cases hname
      obtain ⟨path, _, hpath, h⟩ := exists_of_bind h
      rw [ofExcept_run] at hpath
      obtain ⟨_, rfl⟩ := ending_eq_ok_iff.1 hpath
      obtain ⟨_, h⟩ := passed_of_guard h
      have h := (bind_of_ok (read_of_draft hs) _).symm.trans h
      obtain ⟨hnew, h⟩ := passed_of_guard h
      have h := (bind_of_ok (write_of_draft hs _) _).symm.trans h
      have hdraft := Engine.draft?_redraft hs
        { s with contents := s.contents.create name ⟨path, autoIncrement.isTrue⟩ }
      obtain ⟨scope, _, hopen⟩ := meets_openCollection_of_draft hdraft (.text name)
      obtain ⟨rfl, _⟩ := hopen.of_ok rfl h
      rw [name_of_openCollection h]
      exact ⟨Bool.eq_false_iff.2 hnew, _, Engine.draft?_rescope hdraft scope⟩
  | _ =>
      obtain ⟨_, _, hname, _⟩ := exists_of_bind h
      cases hname

end Action

namespace Engine

variable {e : Engine}

/-- A collection that an upgrade has just created holds no record and no index. -/
def CreatesClear (e : Engine) : Prop :=
  ∀ tx name keyPath autoIncrement r d, (e.draft? tx).isSome →
    Action.createCollection tx name keyPath autoIncrement e = .ok r d →
      ∃ s, d.draft? tx = some s ∧ s.contents.contains r.name = true ∧ (s.contents.get r.name).IsClear

/-- Where no data is outside the catalog, none is found by a new collection. -/
theorem createsClear_of_isCatalogued (h : e.IsCatalogued) : e.CreatesClear := by
  intro tx name keyPath autoIncrement r d hdraft hrun
  obtain ⟨s, hs⟩ := Option.isSome_iff_exists.1 hdraft
  obtain ⟨hnew, keying, hcreated⟩ := Action.exists_of_createCollection hs hrun
  have hclear := h.draft hs r.name hnew
  have hself : (s.contents.create r.name keying).get r.name =
      { s.contents.get r.name with header := some ⟨keying, 0⟩ } := Contents.get_set_self _ _ _
  refine ⟨_, hcreated, ?_, ?_⟩
  · exact congrArg (fun c : Collection => c.header.isSome) hself
  · exact hself ▸ hclear

/-- No data is outside the catalog all along a run of calls, and each collection is without data when
it is created, exactly if no call strays. -/
theorem isCatalogued_iff_forall_not_isStray (calls : List EngineCall) :
    (∀ before, before <+: calls → (initial.afterCalls before).IsCatalogued ∧
        (initial.afterCalls before).CreatesClear) ↔
      ∀ before c, before ++ [c] <+: calls → ¬c.IsStray (initial.afterCalls before) := by
  have hafter (before : List EngineCall) (c : EngineCall) :
      initial.afterCalls (before ++ [c]) = c.run.after (initial.afterCalls before) :=
    List.foldl_concat ..
  have hreachable (before : List EngineCall) : (initial.afterCalls before).IsReachable :=
    isReachable_afterCalls .initial before
  constructor
  · intro hcatalogued before c hbefore
    have hnow := (hcatalogued before ((List.prefix_append _ _).trans hbefore)).1
    refine (EngineCall.isCatalogued_run_iff (hreachable before) hnow c).1 ?_
    rw [← hafter]
    exact (hcatalogued _ hbefore).1
  · intro hstays before hbefore
    -- by induction on how far the run has come, since each call is judged in the state before it
    have hnow : (initial.afterCalls before).IsCatalogued := by
      induction before using List.reverseRecOn with
      | nil => exact allContents_initial Contents.isCatalogued_empty
      | append_singleton before c ih =>
          have hearlier := ih ((List.prefix_append _ _).trans hbefore)
          rw [hafter]
          exact (EngineCall.isCatalogued_run_iff (hreachable before) hearlier c).2
            (hstays before c hbefore)
    exact ⟨hnow, createsClear_of_isCatalogued hnow⟩

/-- A collection as the upgrade that makes it obtains it. -/
def leaflet : StoreRef := ⟨0, "leaflet", ⟨none, false⟩⟩

/-- An upgrade that deletes a collection again, and then puts a record through its handle. -/
def leafletStrayed : Engine :=
  initial.afterCalls [.beginOpen "path" (.int 1) none,
    .createCollection 0 (.text "leaflet") .null (.bool false), .deleteCollection 0 (.text "leaflet"),
    .put leaflet (.text "old") (.int 1)]

/-- Then it creates the collection anew. -/
def createLeaflet : Action StoreRef :=
  Action.createCollection 0 (.text "leaflet") .null (.bool false)

/-- The record is outside the catalog, and the new collection has it from the start. -/
theorem not_createsClear_leafletStrayed :
    ¬leafletStrayed.IsCatalogued ∧ ¬leafletStrayed.CreatesClear := by
  have hnot : ¬leafletStrayed.CreatesClear := by
    intro hclear
    have hresult : createLeaflet.result? leafletStrayed = some leaflet := by decide +kernel
    obtain ⟨d, hrun⟩ := exists_ok_of_result? hresult
    obtain ⟨s, hs, _, hempty, _⟩ := hclear 0 _ _ _ _ _ (by decide +kernel) hrun
    have hone : ((createLeaflet.after leafletStrayed).draft? 0).map
        (fun s => (s.contents.get "leaflet").records.length) = some 1 := by decide +kernel
    have hzero : (s.contents.get "leaflet").records.length = 0 := congrArg List.length hempty
    rw [Effect.after, hrun, hs, Option.map_some, hzero] at hone
    cases hone
  exact ⟨fun hcatalogued => hnot (createsClear_of_isCatalogued hcatalogued), hnot⟩

end Engine
end RecordStore
