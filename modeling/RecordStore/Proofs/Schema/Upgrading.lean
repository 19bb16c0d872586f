import RecordStore.Proofs.Engine.Changes
import RecordStore.Proofs.Schema.Catalog
import RecordStore.Schema.Reconciliation

/-!
The catalog during an upgrade. An upgrade changes nothing but its draft and the scope of its transaction,
so what a call of it leads to is told by what becomes of the contents of the draft. The rules are exact:
each says what a call yields and what state it leaves.
-/

namespace RecordStore

open Effect

/-- A key path that is handed on as a value is read back as it is. -/
theorem Schema.eq_of_ofValue_pathValue {path q : Option KeyPath}
    (h : KeyPath.ofValue (pathValue path) = .ok q) : q = path := by
  have hparts (ps : List String) : KeyPath.parts (ps.map Value.text) = .ok ps := by
    induction ps with
    | nil => rfl
    | cons p rest ih =>
        rw [List.map_cons, KeyPath.parts, ih]
        rfl
  cases path with
  | none =>
      cases h
      rfl
  | some path =>
      cases path with
      | single p =>
          cases h
          rfl
      | compound ps =>
          change KeyPath.compoundOf (ps.map Value.text) = .ok q at h
          unfold KeyPath.compoundOf at h
          rw [hparts, ok_bind] at h
          split at h
          · cases h
          · cases h
            rfl

/-- Where a key path is read from such a value, what follows goes on with the path. -/
theorem Schema.of_keyPath_bind {σ β : Type} {path : Option KeyPath} {f : Option KeyPath → Effect σ β}
    {s t : σ} {y : β} (h : ((ofExcept (Key.storeResult (KeyPath.ofValue (pathValue path))) :
      Effect σ (Option KeyPath)) >>= f) s = .ok y t) : f path s = .ok y t := by
  obtain ⟨q, u, hread, h⟩ := exists_of_bind h
  rw [ofExcept_run] at hread
  obtain ⟨hpath, rfl⟩ := ending_eq_ok_iff.1 hread
  rw [← eq_of_ofValue_pathValue (Key.storeResult_eq_ok_iff.1 hpath)]
  exact h

/-! ### States of an upgrade -/

namespace Engine

variable {e : Engine} {tx : Nat} {s : Store} {k : Contents} {scope : List String}

/-- An upgrade with other contents in its draft, and another scope. -/
def upgraded (e : Engine) (tx : Nat) (s : Store) (k : Contents) (scope : List String) : Engine :=
  (e.redraft tx { s with contents := k }).rescope tx scope

section

variable (hs : e.draft? tx = some s)

include hs

theorem upgraded_self : e.upgraded tx s s.contents (e.transaction tx).scope = e := by
  rw [upgraded, redraft_self hs, rescope_self]

theorem draft?_upgraded (k : Contents) (scope : List String) :
    (e.upgraded tx s k scope).draft? tx = some { s with contents := k } :=
  draft?_rescope (draft?_redraft hs _) scope

theorem transaction_upgraded (k : Contents) (scope : List String) :
    (e.upgraded tx s k scope).transaction tx = { e.transaction tx with scope := scope } :=
  transaction_rescope (e := e.redraft tx _) (draft?_eq_some_iff.1 hs).active scope

theorem rescope_upgraded (k : Contents) (scope scope' : List String) :
    (e.upgraded tx s k scope).rescope tx scope' = e.upgraded tx s k scope' := by
  rw [rescope, transaction_upgraded hs]
  unfold upgraded rescope setTransaction
  simp only [List.set_set]
  rfl

theorem redraft_upgraded (k k' : Contents) (scope : List String) :
    (e.upgraded tx s k scope).redraft tx { s with contents := k' } = e.upgraded tx s k' scope := by
  have hcommutes (g : Engine) (hg : (g.transaction tx).isActive = true) (s' : Store) :
      (g.rescope tx scope).redraft tx s' = (g.redraft tx s').rescope tx scope := by
    simp only [redraft, rework, transaction_rescope hg]
    rfl
  rw [upgraded, hcommutes (e.redraft tx { s with contents := k }) (draft?_eq_some_iff.1 hs).active,
    redraft_redraft hs, upgraded]

end

end Engine

/-! ### Calls of an upgrade -/

section Calls

variable {e d : Engine} {tx : Nat} {s : Store} {k : Contents} {scope : List String} {name : String}
  (hs : e.draft? tx = some s)

include hs

namespace Action

theorem collectionNames_upgraded :
    collectionNames tx (e.upgraded tx s k scope) = .ok k.names (e.upgraded tx s k scope) := by
  unfold collectionNames
  rw [bind_of_ok (read_of_draft (Engine.draft?_upgraded hs k scope))]
  rfl

theorem write_upgraded (f : Contents → Contents) :
    write tx (fun s => { s with contents := f s.contents }) (e.upgraded tx s k scope) =
      .ok () (e.upgraded tx s (f k) scope) := by
  rw [write_of_draft (Engine.draft?_upgraded hs k scope), Engine.redraft_upgraded hs]

theorem deleteCollection_upgraded (scope : List String) (hname : k.contains name = true) :
    deleteCollection tx (.text name) (e.upgraded tx s k scope) =
      .ok () (e.upgraded tx s (k.delete name) scope) := by
  unfold deleteCollection
  rw [bind_of_ok (read_of_draft (Engine.draft?_upgraded hs k scope))]
  refine (congrFun (if_neg ?_) _).trans (write_upgraded hs fun k => k.delete name)
  change ¬(!k.contains name) = true
  rw [hname]
  exact Bool.false_ne_true

/-- A collection in the catalog is obtained, and the scope is then the catalog. -/
theorem openCollection_upgraded (scope : List String)
    (hmode : (e.transaction tx).mode = .versionchange) (hname : name ∈ k.names) {header : Header}
    (hheader : (k.get name).header = some header) :
    openCollection tx (.text name) (e.upgraded tx s k scope) =
      .ok ⟨tx, name, header.keying⟩ (e.upgraded tx s k k.names) := by
  have htransaction : transaction tx (e.upgraded tx s k scope) =
      .ok { e.transaction tx with scope := scope } (e.upgraded tx s k scope) :=
    congrArg (EStateM.Result.ok · _) (Engine.transaction_upgraded hs k scope)
  have hany : k.names.any (fun n => (Value.text name).equals (.text n)) = true :=
    List.any_eq_true.2 ⟨name, hname, beq_self_eq_true name⟩
  have hrescope : (e.upgraded tx s k scope).setTransaction tx
      { e.transaction tx with scope := k.names } = e.upgraded tx s k k.names := by
    rw [← Engine.rescope_upgraded hs k scope k.names, Engine.rescope, Engine.transaction_upgraded hs]
  rw [openCollection_eq, bind_of_ok htransaction, if_pos hmode,
    bind_of_ok (collectionNames_upgraded hs), modify_bind]
  change openIn tx (.text name) k.names ((e.upgraded tx s k scope).setTransaction tx
    { e.transaction tx with scope := k.names }) = _
  rw [hrescope]
  unfold openIn
  rw [bind_of_ok (ensureActive_of_hasUnderWay
    (Engine.draft?_eq_some_iff.1 (Engine.draft?_upgraded hs k k.names)))]
  dsimp only [Value.unhashable?]
  rw [hany]
  refine (bind_of_ok (read_of_draft (Engine.draft?_upgraded hs k k.names)) _).trans ?_
  have hthere : (k.get (Value.text name).display).header = some header := hheader
  dsimp only
  rw [hthere]
  rfl

/-- A collection that was created was not in the catalog before; it is there with its keying, and it is
obtained at once. -/
theorem createCollection_upgraded (hmode : (e.transaction tx).mode = .versionchange)
    (hk : k.IsOrdered) {path : Option KeyPath} {auto : Bool} {r : StoreRef}
    (h : createCollection tx (.text name) (Schema.pathValue path) (.bool auto)
      (e.upgraded tx s k scope) = .ok r d) :
    k.contains name = false ∧ r = ⟨tx, name, ⟨path, auto⟩⟩ ∧
      d = e.upgraded tx s (k.create name ⟨path, auto⟩) (k.create name ⟨path, auto⟩).names := by
  unfold createCollection at h
  obtain ⟨_, _, hname, h⟩ := exists_of_bind h
  cases hname
  have h := Schema.of_keyPath_bind h
  obtain ⟨_, h⟩ := passed_of_guard h
  have h := (bind_of_ok (read_of_draft (Engine.draft?_upgraded hs k scope)) _).symm.trans h
  obtain ⟨hnew, h⟩ := passed_of_guard h
  have hnew : k.contains name = false := Bool.eq_false_iff.2 hnew
  have hcreated : ((k.create name ⟨path, auto⟩).get name).header = some ⟨⟨path, auto⟩, 0⟩ :=
    congrArg Collection.header (Contents.get_set_self k name _)
  have hmem : name ∈ (k.create name ⟨path, auto⟩).names := by
    refine (Contents.mem_names_iff (hk.set name _)).2 ?_
    exact congrArg Option.isSome hcreated
  change (write tx (fun s => { s with contents := s.contents.create name ⟨path, auto⟩ }) >>= fun _ =>
    openCollection tx (.text name)) _ = _ at h
  rw [bind_of_ok (write_upgraded hs fun k => k.create name ⟨path, auto⟩),
    openCollection_upgraded hs scope hmode hmem hcreated] at h
  cases h
  exact ⟨hnew, rfl, rfl⟩

end Action

namespace StoreRef

variable {r : StoreRef} (hr : r.transaction = tx)

include hr

theorem indexNames_upgraded (k : Contents) (scope : List String) :
    r.indexNames (e.upgraded tx s k scope) =
      .ok ((k.get r.name).indexes.map Index.name) (e.upgraded tx s k scope) := by
  subst hr
  unfold indexNames
  rw [bind_of_ok (collection_of_draft (Engine.draft?_upgraded hs k scope))]
  rfl

/-- An index that was created has become part of the draft. -/
theorem createIndex_upgraded {spec : IndexSpec} {i : IndexRef}
    (h : r.createIndex (.text name) (Schema.pathValue spec.keyPath) (.bool spec.unique)
      (.bool spec.multiEntry) (e.upgraded tx s k scope) = .ok i d) :
    ∃ c, (k.get r.name).createIndex r.name name spec = (.ok (), c) ∧
      d = e.upgraded tx s (k.set r.name c) scope := by
  subst hr
  unfold createIndex at h
  obtain ⟨_, _, htransaction, h⟩ := exists_of_bind h
  cases htransaction
  obtain ⟨_, h⟩ := passed_of_guard h
  have h := Schema.of_keyPath_bind h
  obtain ⟨_, h⟩ := passed_of_guard h
  obtain ⟨_, g, hchange, h⟩ := exists_of_bind h
  rw [change_of_draft (Engine.draft?_upgraded hs k scope)] at hchange
  obtain ⟨hok, rfl⟩ := ending_eq_ok_iff.1 hchange
  cases h
  refine ⟨_, Prod.ext hok rfl, ?_⟩
  exact Engine.redraft_upgraded hs k _ scope

end StoreRef

end Calls
end RecordStore
