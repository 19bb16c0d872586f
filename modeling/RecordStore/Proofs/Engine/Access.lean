import RecordStore.Proofs.Engine.Connection
import RecordStore.Proofs.Results

/-!
Rules for what is done through the handles of collections, indexes and cursors. Whatever is read
keeps every stable property, and whatever is written meets what its change of the draft meets.
-/

namespace RecordStore

open Effect

variable {α : Type} {P E : Engine → Prop} {Q : α → Engine → Prop}

namespace Action

theorem keeps_collectionNames {tx : Nat} (hread : (read tx).Keeps P) :
    (collectionNames tx).Keeps P :=
  keeps_bind hread fun _ => keeps_pure _

/-- What is left of opening a collection once the scope is known. -/
def openIn (tx : Nat) (name : Value) (scope : List String) : Action StoreRef := do
  let _ ← ensureActive tx
  match name.unhashable? with
  | some k => throw (.format (.unhashable k))
  | none => pure ()
  if !scope.any (fun s => name.equals (.text s)) then refuse (.outOfScope name.display)
  let s ← read tx
  match (s.contents.get name.display).header with
  | none => refuse (.noCollection name.display)
  | some h => return ⟨tx, name.display, h.keying⟩

theorem openCollection_eq (tx : Nat) (name : Value) : openCollection tx name = (do
    let t ← transaction tx
    let scope ← (if t.mode = .versionchange then collectionNames tx else pure t.scope)
    modify (·.setTransaction tx { t with scope := scope })
    openIn tx name scope) := by
  refine congrArg (transaction tx >>= ·) (funext fun t => ?_)
  dsimp only
  split
  · rfl
  · rfl

/-- A collection that is obtained is in the catalog of a store that was read, with its keying. -/
theorem ensures_openIn {tx : Nat} {S : Store → Prop} (hread : (read tx).Ensures P S) (name : Value)
    (scope : List String) : (openIn tx name scope).Ensures P fun r => r.transaction = tx ∧
      ∃ s, S s ∧ (s.contents.get r.name).header.map Header.keying = some r.keying := by
  refine keeps_bind (keeps_ensureActive tx) fun _ => ?_
  cases name.unhashable? with
  | some k => exact meets_fail (keeps_throw _)
  | none =>
      refine meets_guard (keeps_throw _) fun _ => ?_
      refine ensures_bind hread fun s hs => ?_
      cases hh : (s.contents.get name.display).header with
      | none => exact keeps_throw _
      | some h => exact meets_pure fun _ hd => ⟨hd, rfl, s, hs, by rw [hh]; rfl⟩

/-- The keying of a collection that is obtained is in the catalog of a store that was read. -/
theorem ensures_openCollection {tx : Nat} {S : Store → Prop} {T : Keying → Prop}
    (hP : Engine.IsStable P) (hread : (read tx).Ensures P S)
    (hT : ∀ s, S s → ∀ name, ∀ h ∈ (s.contents.get name).header, T h.keying) (name : Value) :
    (openCollection tx name).Ensures P fun r => T r.keying := by
  rw [openCollection_eq]
  refine meets_of_each fun e he => ?_
  refine meets_transaction_bind fun t ht => ?_
  refine meets_bind (Q := fun _ d => P d ∧ d.transaction tx = t) ?_ fun scope => ?_
  · have hstart : ∀ d, d = e → P d ∧ d.transaction tx = t := by
      rintro _ rfl
      exact ⟨he, ht.symm⟩
    have hnames : (collectionNames tx).Keeps fun d => P d ∧ d.transaction tx = t :=
      keeps_collectionNames (keeps_read fun _ _ hd hw => ⟨hP.observed hd.1 hw, hd.2⟩)
    exact meets_ite (fun _ => hnames.imp hstart (fun _ _ hd => hd) fun _ hd => hd.1)
      fun _ => meets_pure hstart
  · refine meets_bind (Q := fun _ => P) (meets_modify ?_) fun _ => ?_
    · rintro d ⟨hd, rfl⟩
      exact hP.setTransaction hd rfl rfl id id
    · refine (ensures_openIn hread name scope).imp (fun _ hd => hd) ?_ fun _ hd => hd
      rintro r d ⟨hd, _, s, hs, hr⟩
      obtain ⟨h, hh, hkeying⟩ := Option.map_eq_some_iff.1 hr
      have hTr : T r.keying := hkeying ▸ hT s hs r.name h hh
      exact ⟨hd, hTr⟩

/-- Outside an upgrade the scope stays as it is. -/
theorem keeps_openCollection {tx : Nat}
    (hmode : ∀ e, P e → (e.transaction tx).mode ≠ .versionchange) (hread : (read tx).Keeps P)
    (name : Value) : (openCollection tx name).Keeps P := by
  rw [openCollection_eq]
  refine meets_of_each fun e he => ?_
  refine meets_transaction_bind fun t ht => ?_
  subst ht
  rw [if_neg (hmode e he)]
  refine meets_bind_of_ok (x := (e.transaction tx).scope) rfl ?_
  refine meets_bind_of_ok (t := e) (congrArg _ (Engine.setTransaction_self e tx)) ?_
  refine (ensures_openIn (S := fun _ => True) (hread.imp (fun _ hd => hd)
    (fun _ _ hd => ⟨hd, trivial⟩) fun _ hd => hd) name _).imp ?_ (fun _ _ hd => hd.1) fun _ hd => hd
  rintro _ rfl
  exact he

theorem ensures_createCollection {tx : Nat} {name keyPath autoIncrement : Value}
    {T : StoreRef → Prop} (hread : (read tx).Keeps P)
    (hcreate : ∀ name path, KeyPath.ofValue keyPath = .ok path → (write tx fun s =>
      { s with contents := s.contents.create name ⟨path, autoIncrement.isTrue⟩ }).Keeps P)
    (hopen : ∀ name, (openCollection tx name).Ensures P T) :
    (createCollection tx name keyPath autoIncrement).Ensures P T := by
  unfold createCollection
  cases name with
  | text name =>
      refine ensures_bind (T := fun path => KeyPath.ofValue keyPath = .ok path)
        (meets_ofExcept (fun path h _ he => ⟨he, Key.storeResult_eq_ok_iff.1 h⟩) fun _ he => he)
        fun path hpath => ?_
      refine meets_guard (keeps_throw _) fun _ => ?_
      refine keeps_bind hread fun s => ?_
      refine meets_guard (keeps_throw _) fun _ => ?_
      exact keeps_bind (hcreate name path hpath) fun _ => hopen _
  | _ => exact meets_fail (keeps_throw _)

theorem meets_deleteCollection {tx : Nat} {name : Value} {Q : Engine → Prop}
    (hread : (read tx).Keeps P)
    (hdelete : (write tx fun s => { s with contents := s.contents.delete name.display }).Meets P
      (fun _ => Q) P) : (deleteCollection tx name).Meets P (fun _ => Q) P := by
  refine keeps_bind hread fun s => ?_
  exact meets_guard (keeps_throw _) fun _ => hdelete

end Action

namespace StoreRef

variable {r : StoreRef}

theorem keeps_collection (hread : (Action.read r.transaction).Keeps P) : r.collection.Keeps P :=
  keeps_bind hread fun _ => keeps_pure _

/-- A change of a collection meets what the write of its outcome meets. -/
theorem meets_change {f : Collection → Except Failure α × Collection} {T : Collection → Prop}
    (hread : (Action.read r.transaction).Meets P
      (fun s e => P e ∧ T (s.contents.get r.name)) E)
    (hok : ∀ c x d, T c → f c = (.ok x, d) → (Action.write r.transaction fun s =>
      { s with contents := s.contents.set r.name d }).Meets P (fun _ => Q x) E)
    (herror : ∀ c x d, T c → f c = (.error x, d) → (Action.write r.transaction fun s =>
      { s with contents := s.contents.set r.name d }).Meets P (fun _ => E) E) :
    (r.change f).Meets P Q E := by
  refine ensures_bind (S := P) (T := T) (ensures_bind hread fun s hs =>
    meets_pure fun _ he => ⟨he, hs⟩) fun c hc => ?_
  cases hf : f c with
  | mk result d =>
      cases result with
      | ok x => exact meets_bind (hok c x d hc hf) fun _ => meets_pure fun _ he => he
      | error x => exact meets_bind (herror c x d hc hf) fun _ => keeps_throw x

/-- A property that all writes keep is kept by all changes. -/
theorem keeps_change {f : Collection → Except Failure α × Collection}
    (hread : (Action.read r.transaction).Keeps P)
    (hwrite : ∀ change, (Action.write r.transaction change).Keeps P) : (r.change f).Keeps P :=
  meets_change (T := fun _ => True)
    (hread.imp (fun _ he => he) (fun _ _ he => ⟨he, trivial⟩) fun _ he => he)
    (fun _ _ _ _ _ => hwrite _) fun _ _ _ _ _ => hwrite _

theorem keeps_conditions (query : Value) : (conditions query).Keeps P :=
  keeps_bind (keeps_ofExcept _) fun _ => keeps_pure _

theorem keeps_openIndex (hread : (Action.read r.transaction).Keeps P) (name : Value) :
    (r.openIndex name).Keeps P := by
  refine keeps_bind (keeps_collection hread) fun c => ?_
  cases c.index? name.display with
  | none => exact keeps_throw _
  | some i => exact keeps_pure _

theorem keeps_get (hread : (Action.read r.transaction).Keeps P) (query : Value) :
    (r.get query).Keeps P := by
  refine meets_guard (keeps_throw _) fun _ => ?_
  refine keeps_bind (keeps_conditions query) fun conditions => ?_
  exact keeps_bind (keeps_collection hread) fun _ => keeps_ofExcept _

theorem keeps_count (hread : (Action.read r.transaction).Keeps P) (source : Option String)
    (query : Value) : (r.count source query).Keeps P :=
  keeps_bind (keeps_conditions query) fun _ =>
    keeps_bind (keeps_collection hread) fun _ => keeps_pure _

/-! ### Writing -/

theorem meets_createIndex {name keyPath unique multiEntry : Value} {Q : Engine → Prop}
    (hPE : ∀ e, P e → E e)
    (hchange : ∀ spec, (r.change fun c => c.createIndex r.name name.display spec).Meets P
      (fun _ => Q) E) : (r.createIndex name keyPath unique multiEntry).Meets P (fun _ => Q) E := by
  unfold createIndex
  refine meets_bind ((Action.keeps_transaction r.transaction).imp_error hPE) fun t => ?_
  refine meets_guard (meets_throw _ hPE) fun _ => ?_
  refine meets_bind ((keeps_ofExcept _).imp_error hPE) fun path => ?_
  refine meets_guard (meets_throw _ hPE) fun _ => ?_
  exact meets_bind (hchange _) fun _ => meets_pure fun _ he => he

theorem keeps_deleteIndex (hread : (Action.read r.transaction).Keeps P)
    (hchange : ∀ index, (r.change fun c => (.ok (), c.deleteIndex index)).Keeps P) (name : Value) :
    (r.deleteIndex name).Keeps P := by
  refine keeps_bind (Action.keeps_transaction _) fun t => ?_
  refine meets_guard (keeps_throw _) fun _ => ?_
  exact keeps_bind (keeps_openIndex hread name) fun i => hchange i.name

theorem meets_write {value key : Value} {overwrite : Bool} {Q : Value → Engine → Prop}
    (hchange : (r.change fun c => c.write r.name r.keying value key overwrite).Meets P Q P) :
    (r.write value key overwrite).Meets P Q P :=
  keeps_bind (Action.keeps_ensureWritable _) fun _ => hchange

theorem meets_delete {query : Value} {Q : Unit → Engine → Prop}
    (hchange : ∀ range, KeyRange.ofQuery query = .ok range →
      (r.change fun c => (.ok (), c.delete (KeyRange.conditionsOf range))).Meets P Q P) :
    (r.delete query).Meets P Q P := by
  refine keeps_bind (Action.keeps_ensureWritable _) fun _ => ?_
  refine meets_guard (keeps_throw _) fun _ => ?_
  refine ensures_bind (S := P) (T := fun cs => ∃ range, KeyRange.ofQuery query = .ok range ∧
    cs = KeyRange.conditionsOf range) ?_ fun cs ⟨range, hrange, hcs⟩ => ?_
  · exact ensures_bind (meets_ofExcept (fun range h _ he => ⟨he, h⟩) fun _ he => he)
      fun range hrange => meets_pure fun _ he => ⟨he, range, hrange, rfl⟩
  · rw [hcs]
    exact hchange range hrange

theorem meets_clear {Q : Unit → Engine → Prop}
    (hchange : (r.change fun c => (.ok (), c.clear)).Meets P Q P) : r.clear.Meets P Q P :=
  keeps_bind (Action.keeps_ensureWritable _) fun _ => hchange

end StoreRef

namespace IndexRef

variable {i : IndexRef}

theorem keeps_get (hread : (Action.read i.store.transaction).Keeps P) (query : Value) :
    (i.get query).Keeps P :=
  keeps_bind (StoreRef.keeps_conditions query) fun _ =>
    keeps_bind (StoreRef.keeps_collection hread) fun _ => keeps_ofExcept _

theorem keeps_getKey (hread : (Action.read i.store.transaction).Keeps P) (query : Value) :
    (i.getKey query).Keeps P :=
  keeps_bind (StoreRef.keeps_conditions query) fun _ =>
    keeps_bind (StoreRef.keeps_collection hread) fun _ => keeps_ofExcept _

end IndexRef

namespace CursorRef

theorem keeps_step {c : CursorRef} (hread : (Action.read c.store.transaction).Keeps P)
    (count : Nat) : (c.step count).Keeps P := by
  refine keeps_bind (StoreRef.keeps_collection hread) fun _ => ?_
  exact meets_guard (keeps_throw _) fun _ => keeps_pure _

theorem keeps_start {r : StoreRef} (hread : (Action.read r.transaction).Keeps P)
    (source : Option String) (query direction : Value) (keyOnly : Bool) :
    (start r source query direction keyOnly).Keeps P := by
  refine keeps_bind (StoreRef.keeps_conditions query) fun conditions => ?_
  cases Direction.ofValue? direction with
  | none => exact keeps_throw _
  | some d =>
      exact keeps_bind (keeps_step hread _) fun _ => keeps_bind (keeps_ofExcept _) fun _ =>
        keeps_pure _

variable {c : CursorRef}

/-- A cursor that is for keys only or past its last row is refused. -/
theorem meets_guards {a : Action α} {f : StoreFault}
    (hrefused : c.cursor.keyOnly = true ∨ c.cursor.isDone = true → ∀ d, P d → E d)
    (ha : c.cursor.keyOnly = false → c.cursor.isDone = false → a.Meets P Q E) :
    Meets P (do
      if c.cursor.keyOnly then Action.refuse f
      c.ensurePositioned
      a) Q E := by
  cases hkey : c.cursor.keyOnly with
  | true => exact meets_fail (meets_throw _ (hrefused (.inl hkey)))
  | false =>
      cases hdone : c.cursor.isDone with
      | true =>
          unfold ensurePositioned
          rw [hdone]
          exact meets_fail (meets_throw _ (hrefused (.inr hdone)))
      | false =>
          unfold ensurePositioned
          rw [hdone]
          exact ha hkey hdone

theorem meets_update {value : Value} {Q : Value → Engine → Prop} (hPE : ∀ e, P e → E e)
    (hput : ∀ key, (c.store.put value key).Meets P Q E) : (c.update value).Meets P Q E := by
  refine meets_guards (fun _ => hPE) fun _ _ => ?_
  cases c.store.keying.keyPath with
  | none => exact hput _
  | some path => exact meets_bind ((keeps_ofExcept _).imp_error hPE) fun _ => hput _

theorem meets_delete {Q : Unit → Engine → Prop} (hPE : ∀ e, P e → E e)
    (hdelete : (c.store.delete c.cursor.primaryKey).Meets P Q E) : c.delete.Meets P Q E :=
  meets_guards (fun _ => hPE) fun _ _ => hdelete

end CursorRef
end RecordStore
