import RecordStore.Proofs.Schema.Upgrading

/-!
Reconciliation with a schema. The undeclared collections are dropped first; then each declared one is
obtained as it is or made anew, and gains the indexes that it is missing. Since no two declarations have
one name, what is done for one of them leaves what was done for the others.
-/

namespace RecordStore

open Effect

/-! ### What a schema calls for -/

/-- The definitions of indexes whose names are not among some. -/
def Schema.absent (present : List String) (specs : List (String × IndexSpec)) :
    List (String × IndexSpec) :=
  specs.filter fun i => !present.contains i.1

namespace CollectionSpec

/-- What is under the name of a collection once the collection is obtained. -/
def obtained (spec : CollectionSpec) (c : Collection) : Collection :=
  { c with header := some (c.header.getD ⟨spec.keying, 0⟩) }

/-- The declared indexes that a collection does not have. -/
def missing (spec : CollectionSpec) (c : Collection) : List (String × IndexSpec) :=
  Schema.absent (c.indexes.map Index.name) spec.indexes

/-- The changes that make a collection what is declared. -/
def changes (spec : CollectionSpec) (name : String) (c : Collection) : List SchemaChange :=
  (if c.header.isSome then [] else [.created name]) ++
    (spec.missing c).map fun i => .indexed name i.1

end CollectionSpec

namespace Schema

def names (schema : Schema) : List String := schema.map Prod.fst

/-- The names among some that a schema does not declare. -/
def undeclared (schema : Schema) (names : List String) : List String :=
  names.filter fun name => (schema.lookup name).isNone

/-- The changes that make all that is declared. -/
def creations (schema : Schema) (k : Contents) : List SchemaChange :=
  schema.flatMap fun d => d.2.changes d.1 (k.get d.1)

/-- Contents that have what a schema declares, and all else as other contents have it. -/
structure IsBuilt (schema : Schema) (k k' : Contents) : Prop where
  ordered : k'.IsOrdered
  others : ∀ name ∉ schema.names, k'.get name = k.get name
  gains : ∀ d ∈ schema,
    (d.2.obtained (k.get d.1)).Gains (d.2.missing (k.get d.1)) (k'.get d.1)

theorem creations_cons (name : String) (spec : CollectionSpec) (rest : Schema) (k : Contents) :
    creations ((name, spec) :: rest) k = spec.changes name (k.get name) ++ rest.creations k :=
  List.flatMap_cons

theorem creations_congr {schema : Schema} {k k' : Contents}
    (h : ∀ name ∈ schema.names, k'.get name = k.get name) :
    schema.creations k' = schema.creations k := by
  unfold creations
  refine List.flatMap_congr fun d hd => ?_
  rw [h d.1 (List.mem_map_of_mem hd)]

end Schema

/-! ### What changes are made of -/

namespace SchemaChange

theorem droppedBy_append (a b : List SchemaChange) : droppedBy (a ++ b) = droppedBy a ++ droppedBy b :=
  List.filterMap_append

theorem createdBy_append (a b : List SchemaChange) : createdBy (a ++ b) = createdBy a ++ createdBy b :=
  List.filterMap_append

theorem indexedBy_append (a b : List SchemaChange) : indexedBy (a ++ b) = indexedBy a ++ indexedBy b :=
  List.filterMap_append

theorem droppedBy_map_dropped (names : List String) : droppedBy (names.map .dropped) = names := by
  simp [droppedBy, List.filterMap_map]

theorem createdBy_map_dropped (names : List String) : createdBy (names.map .dropped) = [] := by
  simp [createdBy]

theorem indexedBy_map_dropped (names : List String) : indexedBy (names.map .dropped) = [] := by
  simp [indexedBy]

end SchemaChange

namespace CollectionSpec

variable (spec : CollectionSpec) (name : String) (c : Collection)

theorem droppedBy_changes : SchemaChange.droppedBy (spec.changes name c) = [] := by
  rw [changes, SchemaChange.droppedBy_append]
  cases c.header <;> simp [SchemaChange.droppedBy]

theorem createdBy_changes : SchemaChange.createdBy (spec.changes name c) =
    if c.header.isSome then [] else [name] := by
  rw [changes, SchemaChange.createdBy_append]
  cases c.header <;> simp [SchemaChange.createdBy]

theorem indexedBy_changes : SchemaChange.indexedBy (spec.changes name c) =
    (spec.missing c).map fun i => (name, i.1) := by
  rw [changes, SchemaChange.indexedBy_append]
  cases c.header <;> simp [SchemaChange.indexedBy, List.filterMap_map]

end CollectionSpec

namespace Reconciliation

theorem engine_run {α : Type} {a : Action α} {e d : Engine} {x : α} (h : a e = .ok x d)
    (changes : List SchemaChange) : engine a ⟨e, changes⟩ = .ok x ⟨d, changes⟩ := by
  unfold engine Effect.focus
  dsimp only
  rw [h]

theorem exists_of_engine_bind {α β : Type} {a : Action α} {f : α → Reconciliation β} {e : Engine}
    {y : β} {changes : List SchemaChange} {t : Reconciling}
    (h : (engine a >>= f) ⟨e, changes⟩ = .ok y t) : ∃ x d, a e = .ok x d ∧ f x ⟨d, changes⟩ = .ok y t := by
  obtain ⟨x, u, ha, h⟩ := exists_of_bind h
  unfold engine Effect.focus at ha
  dsimp only at ha
  cases hrun : a e with
  | error f d =>
      rw [hrun] at ha
      cases ha
  | ok z d =>
      rw [hrun] at ha
      cases ha
      exact ⟨x, d, rfl, h⟩

variable {e : Engine} {tx : Nat} {s : Store} {k : Contents} {scope existing : List String}
  {changes : List SchemaChange} {schema : Schema} {t : Reconciling} (hs : e.draft? tx = some s)

include hs

/-! ### Dropping -/

theorem drop_run (schema : Schema) {names : List String} (hnames : ∀ name ∈ names, k.contains name = true)
    (hnodup : names.Nodup) (scope : List String) (changes : List SchemaChange) :
    drop schema tx names ⟨e.upgraded tx s k scope, changes⟩ =
      .ok () ⟨e.upgraded tx s (k.without (schema.undeclared names)) scope,
        changes ++ (schema.undeclared names).map .dropped⟩ := by
  induction names generalizing k changes with
  | nil => simp [drop, Schema.undeclared, Contents.without]; rfl
  | cons name rest ih =>
      obtain ⟨hname, hrest⟩ := List.nodup_cons.1 hnodup
      have hcontains := hnames name List.mem_cons_self
      unfold drop
      by_cases hdeclared : (schema.lookup name).isNone = true
      · -- the other names are still in the catalog when this one is dropped
        have hcons : schema.undeclared (name :: rest) = name :: schema.undeclared rest :=
          List.filter_cons_of_pos hdeclared
        have hdelete := Action.deleteCollection_upgraded hs scope hcontains
        have hkept (n : String) (hn : n ∈ rest) : (k.delete name).contains n = true := by
          have hne : n ≠ name := fun heq => hname (heq ▸ hn)
          rw [Contents.contains, Contents.delete, Contents.get_set_of_ne hne]
          exact hnames n (List.mem_cons_of_mem _ hn)
        refine (congrFun (if_pos hdeclared) _).trans ?_
        refine (bind_of_ok (engine_run hdelete changes) _).trans ?_
        refine (ih hkept hrest (changes ++ [.dropped name])).trans ?_
        rw [hcons, List.append_assoc]
        rfl
      · have hcons : schema.undeclared (name :: rest) = schema.undeclared rest :=
          List.filter_cons_of_neg hdeclared
        refine (congrFun (if_neg hdeclared) _).trans ?_
        rw [hcons]
        exact ih (fun n hn => hnames n (List.mem_cons_of_mem _ hn)) hrest changes

/-! ### Making what is missing -/

theorem exists_of_index {r : StoreRef} (hr : r.transaction = tx) (hk : k.IsOrdered)
    {present : List String} {specs : List (String × IndexSpec)}
    (h : index r present specs ⟨e.upgraded tx s k scope, changes⟩ = .ok () t) :
    ∃ k', k.IsAltered r.name k' ∧
      (k.get r.name).Gains (Schema.absent present specs) (k'.get r.name) ∧
      t = ⟨e.upgraded tx s k' scope,
        changes ++ (Schema.absent present specs).map fun i => .indexed r.name i.1⟩ := by
  induction specs generalizing k changes with
  | nil =>
      cases h
      refine ⟨k, ⟨hk, fun _ _ => rfl⟩, Collection.gains_nil _, ?_⟩
      rw [Schema.absent, List.filter_nil, List.map_nil, List.append_nil]
  | cons i rest ih =>
      obtain ⟨name, spec⟩ := i
      unfold index at h
      by_cases hnew : (!present.contains name) = true
      · have hcons : Schema.absent present ((name, spec) :: rest) =
            (name, spec) :: Schema.absent present rest := List.filter_cons_of_pos hnew
        have h := (congrFun (if_pos hnew) _).symm.trans h
        obtain ⟨_, d, hmade, h⟩ := exists_of_engine_bind h
        obtain ⟨c, hc, rfl⟩ := StoreRef.createIndex_upgraded hs hr hmade
        change index r present rest ⟨e.upgraded tx s (k.set r.name c) scope,
          changes ++ [.indexed r.name name]⟩ = _ at h
        obtain ⟨k', haltered, hgains, ht⟩ := ih (hk.set r.name c) h
        rw [Contents.get_set_self] at hgains
        refine ⟨k', (hk.isAltered_set r.name c).trans haltered, ?_, ?_⟩
        · rw [hcons]
          exact hgains.cons hc
        · rw [hcons, ht, List.append_assoc]
          rfl
      · have hcons : Schema.absent present ((name, spec) :: rest) = Schema.absent present rest :=
          List.filter_cons_of_neg hnew
        have h := (congrFun (if_neg hnew) _).symm.trans h
        rw [hcons]
        exact ih hk h

section

variable (hmode : (e.transaction tx).mode = .versionchange)

include hmode

theorem exists_of_obtain (hk : k.IsOrdered) {name : String} {spec : CollectionSpec} {r : StoreRef}
    (hexisting : existing.contains name = k.contains name)
    (h : obtain tx existing name spec ⟨e.upgraded tx s k scope, changes⟩ = .ok r t) :
    r.transaction = tx ∧ r.name = name ∧ ∃ k' scope', k.IsAltered name k' ∧
      k'.get name = spec.obtained (k.get name) ∧ t = ⟨e.upgraded tx s k' scope',
        changes ++ if (k.get name).header.isSome then [] else [.created name]⟩ := by
  unfold obtain at h
  by_cases hthere : existing.contains name = true
  · have hname : (k.get name).header.isSome = true := hexisting.symm.trans hthere
    obtain ⟨header, hheader⟩ := Option.isSome_iff_exists.1 hname
    have hmem : name ∈ k.names := (Contents.mem_names_iff hk).2 hname
    have hopen := Action.openCollection_upgraded hs scope hmode hmem hheader
    have h := (congrFun (if_pos hthere) _).symm.trans h
    rw [engine_run hopen] at h
    cases h
    refine ⟨rfl, rfl, k, k.names, ⟨hk, fun _ _ => rfl⟩, ?_, ?_⟩
    · rw [CollectionSpec.obtained, hheader, Option.getD_some, ← hheader]
    · rw [if_pos hname, List.append_nil]
  · have h := (congrFun (if_neg hthere) _).symm.trans h
    obtain ⟨_, d, hmade, h⟩ := exists_of_engine_bind h
    obtain ⟨hnew, rfl, rfl⟩ := Action.createCollection_upgraded hs hmode hk hmade
    cases h
    have hnone : (k.get name).header = none :=
      Option.not_isSome_iff_eq_none.1 (Bool.eq_false_iff.1 hnew)
    refine ⟨rfl, rfl, k.create name spec.keying, (k.create name spec.keying).names,
      hk.isAltered_set name _, ?_, ?_⟩
    · rw [Contents.create, Contents.get_set_self, CollectionSpec.obtained, hnone]
      rfl
    · rw [hnone]
      rfl

theorem exists_of_create (hk : k.IsOrdered) (hnames : schema.names.Nodup)
    (hexisting : ∀ name ∈ schema.names, existing.contains name = k.contains name)
    (h : create tx existing schema ⟨e.upgraded tx s k scope, changes⟩ = .ok () t) :
    ∃ k' scope', schema.IsBuilt k k' ∧
      t = ⟨e.upgraded tx s k' scope', changes ++ schema.creations k⟩ := by
  induction schema generalizing k scope changes with
  | nil =>
      cases h
      refine ⟨k, scope, ⟨hk, fun _ _ => rfl, nofun⟩, ?_⟩
      rw [Schema.creations, List.flatMap_nil, List.append_nil]
  | cons d rest ih =>
      obtain ⟨name, spec⟩ := d
      obtain ⟨hname, hrest⟩ := List.nodup_cons.1 hnames
      unfold create at h
      obtain ⟨r, u, hobtained, h⟩ := exists_of_bind h
      obtain ⟨hr, rfl, k₁, scope₁, haltered₁, hget, rfl⟩ :=
        exists_of_obtain hs hmode hk (hexisting name List.mem_cons_self) hobtained
      have h := (bind_of_ok (engine_run (StoreRef.indexNames_upgraded hs hr _ _) _) _).symm.trans h
      obtain ⟨_, u, hindexed, h⟩ := exists_of_bind h
      obtain ⟨k₂, haltered₂, hgains, rfl⟩ := exists_of_index hs hr haltered₁.ordered hindexed
      have haltered := haltered₁.trans haltered₂
      -- the declarations that follow have other names, and find what was there before
      have hkept : ∀ n ∈ Schema.names rest, k₂.get n = k.get n :=
        fun n hn => haltered.others n fun heq => hname (heq ▸ hn)
      obtain ⟨k', scope', hbuilt, rfl⟩ := ih haltered.ordered hrest (fun n hn => by
        rw [Contents.contains, hkept n hn]
        exact hexisting n (List.mem_cons_of_mem _ hn)) h
      rw [hget] at hgains
      refine ⟨k', scope', ⟨hbuilt.ordered, fun n hn => ?_, fun d hd => ?_⟩, ?_⟩
      · obtain ⟨hne, hn⟩ := not_or.1 (mt List.mem_cons.2 hn)
        exact (hbuilt.others n hn).trans (haltered.others n hne)
      · rcases List.mem_cons.1 hd with rfl | hd
        · rw [hbuilt.others r.name hname]
          exact hgains
        · rw [← hkept d.1 (List.mem_map_of_mem hd)]
          exact hbuilt.gains d hd
      · rw [Schema.creations_congr hkept, hget, Schema.creations_cons, CollectionSpec.changes,
          List.append_assoc, List.append_assoc, List.append_assoc]
        rfl

/-! ### Making nothing -/

omit hs hmode in
theorem index_run {r : StoreRef} {present : List String} {specs : List (String × IndexSpec)}
    (h : Schema.absent present specs = []) (t : Reconciling) : index r present specs t = .ok () t := by
  induction specs with
  | nil => rfl
  | cons i rest ih =>
      have hnone := List.filter_eq_nil_iff.1 h
      refine (congrFun (if_neg (hnone i List.mem_cons_self)) t).trans (ih ?_)
      exact List.filter_eq_nil_iff.2 fun j hj => hnone j (List.mem_cons_of_mem _ hj)

theorem create_run (hk : k.IsOrdered) (hthere : ∀ d ∈ schema, existing.contains d.1 = true ∧
      d.1 ∈ k.names ∧ d.2.missing (k.get d.1) = []) (scope : List String) (changes : List SchemaChange) :
    ∃ scope', create tx existing schema ⟨e.upgraded tx s k scope, changes⟩ =
      .ok () ⟨e.upgraded tx s k scope', changes⟩ := by
  induction schema generalizing scope with
  | nil => exact ⟨scope, rfl⟩
  | cons d rest ih =>
      obtain ⟨name, spec⟩ := d
      obtain ⟨hexisting, hname, hmissing⟩ := hthere (name, spec) List.mem_cons_self
      obtain ⟨header, hheader⟩ := Option.isSome_iff_exists.1 ((Contents.mem_names_iff hk).1 hname)
      have hopen := Action.openCollection_upgraded hs scope hmode hname hheader
      have hobtain : obtain tx existing name spec ⟨e.upgraded tx s k scope, changes⟩ =
          .ok ⟨tx, name, header.keying⟩ ⟨e.upgraded tx s k k.names, changes⟩ :=
        (congrFun (if_pos hexisting) _).trans (engine_run hopen changes)
      have hindexes := StoreRef.indexNames_upgraded hs (r := ⟨tx, name, header.keying⟩) rfl k k.names
      obtain ⟨scope', hrest⟩ := ih (fun d hd => hthere d (List.mem_cons_of_mem _ hd)) k.names
      refine ⟨scope', ?_⟩
      unfold create
      rw [bind_of_ok hobtain, bind_of_ok (engine_run hindexes changes), bind_of_ok (index_run hmissing _)]
      exact hrest

end

end Reconciliation

/-! ### What is reached -/

namespace Contents

/-- Contents in which all data belong to collections in the catalog, and the indexes of each collection
agree with its records. -/
structure IsCoherent (k : Contents) : Prop where
  ordered : k.IsOrdered
  catalogued : ∀ name, k.contains name = false → k.get name = .empty
  consistent : ∀ name, (k.get name).IsConsistent fun _ => False

theorem isCoherent_of_rows {k : Contents} (h : k.IsOrdered) (hrows : ∀ row ∈ k.collections,
    row.2.header.isSome = true ∧ row.2.IsConsistent fun _ => False) : k.IsCoherent := by
  have hget (name : String) : k.get name = .empty ∨ (name, k.get name) ∈ k.collections := by
    unfold get
    cases hc : k.collections.lookup name with
    | none => exact .inl rfl
    | some c => exact .inr ((OrderedRows.mem_iff_lookup isOrder_name h).2 hc)
  refine ⟨h, fun name hname => ?_, fun name => ?_⟩
  · refine (hget name).resolve_right fun hmem => ?_
    rw [contains, (hrows _ hmem).1] at hname
    cases hname
  · rcases hget name with hempty | hmem
    · rw [hempty]
      exact Collection.isConsistent_empty
    · exact (hrows _ hmem).2

end Contents

namespace Schema

/-- From some contents a schema was reached with others. -/
structure IsReached (schema : Schema) (old new : Contents) : Prop where
  coherent : new.IsCoherent
  names : ∀ name, name ∈ new.names ↔ name ∈ schema.names
  /-- A collection that was there keeps its keys, its generator, its records and its indexes. -/
  kept : ∀ name ∈ schema.names, old.contains name = true →
    (new.get name).header = (old.get name).header ∧ (new.get name).records = (old.get name).records ∧
      ∀ i ∈ (old.get name).indexes, i ∈ (new.get name).indexes
  /-- A new collection is empty, with the declared keys and just the declared indexes. -/
  made : ∀ d ∈ schema, old.contains d.1 = false →
    (new.get d.1).header = some ⟨d.2.keying, 0⟩ ∧ (new.get d.1).records = [] ∧
      ∀ i, i ∈ (new.get d.1).indexes ↔ ∃ s ∈ d.2.indexes, i = ⟨s.1, s.2, []⟩
  /-- There is an index for each that is declared. -/
  declared : ∀ d ∈ schema, ∀ s ∈ d.2.indexes, s.1 ∈ (new.get d.1).indexes.map Index.name
  /-- An index that was not there is a declared one, filled from the records. -/
  filled : ∀ d ∈ schema, ∀ i ∈ (new.get d.1).indexes, i ∈ (old.get d.1).indexes ∨
    Collection.IsMadeOf (d.2.missing (old.get d.1)) (old.get d.1).records i

/-- Some changes are what leads from some contents to others with a schema. -/
structure IsReported (schema : Schema) (old new : Contents) (changes : List SchemaChange) : Prop where
  dropped : SchemaChange.droppedBy changes = old.names.filter (· ∉ schema.names)
  sorted : (SchemaChange.droppedBy changes).Pairwise (· < ·)
  created : SchemaChange.createdBy changes = schema.names.filter fun name => !old.contains name
  indexed : SchemaChange.indexedBy changes =
    schema.flatMap fun d => (d.2.missing (old.get d.1)).map fun i => (d.1, i.1)
  mem_indexed : ∀ name index, (name, index) ∈ SchemaChange.indexedBy changes ↔
    index ∈ (new.get name).indexes.map Index.name ∧ index ∉ (old.get name).indexes.map Index.name

variable {schema : Schema} {old new : Contents} {name : String}

theorem isNone_lookup_iff : (schema.lookup name).isNone = true ↔ name ∉ schema.names := by
  rw [Option.isNone_iff_eq_none, List.lookup_eq_none_iff, names, List.mem_map]
  constructor
  · rintro h ⟨d, hd, rfl⟩
    exact absurd (beq_self_eq_true d.1) (by simpa using h d hd)
  · intro h d hd
    exact bne_iff_ne.2 fun heq => h ⟨d, hd, heq.symm⟩

theorem undeclared_eq (names : List String) :
    schema.undeclared names = names.filter (· ∉ schema.names) := by
  refine List.filter_congr fun n _ => ?_
  rw [Bool.eq_iff_iff, decide_eq_true_iff]
  exact isNone_lookup_iff

theorem get_of_mem_names (h : name ∈ schema.names) (k : Contents) (names : List String) :
    (k.without (schema.undeclared names)).get name = k.get name := by
  rw [Contents.get_without, undeclared_eq, if_neg]
  exact fun hmem => of_decide_eq_true (List.mem_filter.1 hmem).2 h

theorem get_of_not_mem_names (hold : old.IsCoherent) (h : name ∉ schema.names) :
    (old.without (schema.undeclared old.names)).get name = .empty := by
  rw [Contents.get_without, undeclared_eq]
  split
  · rfl
  · next hkept =>
    refine hold.catalogued name (Bool.eq_false_iff.2 fun hname => hkept ?_)
    exact List.mem_filter.2 ⟨(Contents.mem_names_iff hold.ordered).2 hname, decide_eq_true h⟩

theorem exists_of_mem_names (h : name ∈ schema.names) : ∃ d ∈ schema, d.1 = name := List.mem_map.1 h

end Schema

theorem CollectionSpec.mem_missing {spec : CollectionSpec} {c : Collection} {s : String × IndexSpec} :
    s ∈ spec.missing c ↔ s ∈ spec.indexes ∧ s.1 ∉ c.indexes.map Index.name := by
  rw [missing, Schema.absent, List.mem_filter, Bool.not_eq_true', List.contains_eq_mem,
    decide_eq_false_iff_not]

/-- An index over no records has no entries. -/
theorem Index.eq_of_indexes_nil {i : Index} (h : i.Indexes []) : i = ⟨i.name, i.spec, []⟩ := by
  have hentries : i.entries = [] := List.eq_nil_iff_forall_not_mem.2 fun e he => by
    obtain ⟨_, _, _, hmem, _⟩ := (h.mem_iff e).1 he
    cases hmem
  rw [← hentries]

namespace Schema

variable {schema : Schema} {old new : Contents} {name : String}

section

variable (hold : old.IsCoherent)
  (h : schema.IsBuilt (old.without (schema.undeclared old.names)) new)

include hold h

theorem IsBuilt.get_eq_empty (hname : name ∉ schema.names) : new.get name = .empty :=
  (h.others name hname).trans (get_of_not_mem_names hold hname)

omit hold in
theorem IsBuilt.gains_old {d : String × CollectionSpec} (hd : d ∈ schema) :
    (d.2.obtained (old.get d.1)).Gains (d.2.missing (old.get d.1)) (new.get d.1) := by
  have hgains := h.gains d hd
  rw [get_of_mem_names (List.mem_map_of_mem hd)] at hgains
  exact hgains

theorem IsBuilt.contains_iff : new.contains name = true ↔ name ∈ schema.names := by
  constructor
  · intro hname
    by_contra hundeclared
    rw [Contents.contains, h.get_eq_empty hold hundeclared] at hname
    cases hname
  · intro hname
    obtain ⟨d, hd, rfl⟩ := exists_of_mem_names hname
    rw [Contents.contains, (h.gains_old hd).header]
    rfl

theorem IsBuilt.isCoherent : new.IsCoherent where
  ordered := h.ordered
  catalogued name hname := by
    refine h.get_eq_empty hold fun hdeclared => ?_
    rw [(h.contains_iff hold).2 hdeclared] at hname
    cases hname
  consistent name := by
    by_cases hname : name ∈ schema.names
    · obtain ⟨d, hd, rfl⟩ := exists_of_mem_names hname
      exact (h.gains_old hd).isConsistent ((hold.consistent d.1).congr rfl rfl)
    · rw [h.get_eq_empty hold hname]
      exact Collection.isConsistent_empty

/-- What was built has the schema, and all that was to be kept. -/
theorem IsBuilt.isReached : schema.IsReached old new where
  coherent := h.isCoherent hold
  names name := (Contents.mem_names_iff h.ordered).trans (h.contains_iff hold)
  kept name hname hthere := by
    obtain ⟨d, hd, rfl⟩ := exists_of_mem_names hname
    obtain ⟨header, hheader⟩ := Option.isSome_iff_exists.1 hthere
    have hgains := h.gains_old hd
    refine ⟨?_, hgains.records, hgains.kept⟩
    rw [hgains.header, CollectionSpec.obtained, hheader]
    rfl
  made d hd hnew := by
    have hgains := h.gains_old hd
    rw [hold.catalogued d.1 hnew] at hgains
    refine ⟨hgains.header, hgains.records, fun i => ⟨fun hi => ?_, ?_⟩⟩
    · rcases hgains.only i hi with hi | ⟨hmissing, hi⟩
      · cases hi
      · exact ⟨_, (CollectionSpec.mem_missing.1 hmissing).1, Index.eq_of_indexes_nil hi⟩
    · rintro ⟨s, hs, rfl⟩
      obtain ⟨i, hi, rfl, hindexes⟩ := hgains.made s (CollectionSpec.mem_missing.2 ⟨hs, List.not_mem_nil⟩)
      rw [← Index.eq_of_indexes_nil hindexes]
      exact hi
  declared d hd s hs := by
    have hgains := h.gains_old hd
    by_cases hthere : s.1 ∈ (old.get d.1).indexes.map Index.name
    · obtain ⟨i, hi, hname⟩ := List.mem_map.1 hthere
      exact List.mem_map.2 ⟨i, hgains.kept i hi, hname⟩
    · obtain ⟨i, hi, rfl, _⟩ := hgains.made s (CollectionSpec.mem_missing.2 ⟨hs, hthere⟩)
      exact List.mem_map_of_mem hi
  filled d hd i hi := (h.gains_old hd).only i hi

end

/-! ### What is reported -/

theorem droppedBy_creations (schema : Schema) (k : Contents) :
    SchemaChange.droppedBy (schema.creations k) = [] := by
  induction schema with
  | nil => rfl
  | cons d rest ih =>
      rw [creations_cons, SchemaChange.droppedBy_append, CollectionSpec.droppedBy_changes, ih]
      rfl

theorem createdBy_creations (schema : Schema) (k : Contents) :
    SchemaChange.createdBy (schema.creations k) = schema.names.filter fun name => !k.contains name := by
  induction schema with
  | nil => rfl
  | cons d rest ih =>
      rw [creations_cons, SchemaChange.createdBy_append, CollectionSpec.createdBy_changes, ih]
      unfold Schema.names Contents.contains
      rw [List.map_cons, List.filter_cons]
      cases (k.get d.1).header with
      | none => rfl
      | some header => rfl

theorem indexedBy_creations (schema : Schema) (k : Contents) :
    SchemaChange.indexedBy (schema.creations k) =
      schema.flatMap fun d => (d.2.missing (k.get d.1)).map fun i => (d.1, i.1) := by
  induction schema with
  | nil => rfl
  | cons d rest ih =>
      rw [creations_cons, SchemaChange.indexedBy_append, CollectionSpec.indexedBy_changes, ih]
      rfl

/-- The missing indexes of all collections are those that were not there. -/
theorem IsReached.mem_missing (h : schema.IsReached old new) {index : String} :
    (name, index) ∈ schema.flatMap (fun d => (d.2.missing (old.get d.1)).map fun i => (d.1, i.1)) ↔
      index ∈ (new.get name).indexes.map Index.name ∧
        index ∉ (old.get name).indexes.map Index.name := by
  rw [List.mem_flatMap]
  constructor
  · rintro ⟨d, hd, hmem⟩
    obtain ⟨s, hs, heq⟩ := List.mem_map.1 hmem
    cases heq
    obtain ⟨hs, hnew⟩ := CollectionSpec.mem_missing.1 hs
    exact ⟨h.declared d hd s hs, hnew⟩
  · rintro ⟨hthere, hnew⟩
    obtain ⟨i, hi, rfl⟩ := List.mem_map.1 hthere
    have hname : name ∈ schema.names := by
      refine (h.names name).1 ((Contents.mem_names_iff h.coherent.ordered).2 ?_)
      by_contra hcontains
      rw [h.coherent.catalogued name (Bool.eq_false_iff.2 hcontains)] at hi
      cases hi
    obtain ⟨d, hd, rfl⟩ := exists_of_mem_names hname
    refine ⟨d, hd, ?_⟩
    -- what is not among the old indexes was made because it was missing
    rcases h.filled d hd i hi with hold | ⟨hmissing, _⟩
    · exact absurd (List.mem_map_of_mem hold) hnew
    · exact List.mem_map.2 ⟨(i.name, i.spec), hmissing, rfl⟩

/-- The changes that are noted are those that were made. -/
theorem IsReached.isReported (hold : old.IsCoherent) (h : schema.IsReached old new) :
    schema.IsReported old new
      ((schema.undeclared old.names).map .dropped ++ schema.creations old) := by
  have hdropped : SchemaChange.droppedBy ((schema.undeclared old.names).map .dropped ++
      schema.creations old) = old.names.filter (· ∉ schema.names) := by
    rw [SchemaChange.droppedBy_append, droppedBy_creations, List.append_nil,
      SchemaChange.droppedBy_map_dropped, undeclared_eq]
  have hcreated : SchemaChange.createdBy ((schema.undeclared old.names).map .dropped ++
      schema.creations old) = schema.names.filter fun name => !old.contains name := by
    rw [SchemaChange.createdBy_append, SchemaChange.createdBy_map_dropped, createdBy_creations]
    rfl
  have hindexed : SchemaChange.indexedBy ((schema.undeclared old.names).map .dropped ++
      schema.creations old) =
        schema.flatMap fun d => (d.2.missing (old.get d.1)).map fun i => (d.1, i.1) := by
    rw [SchemaChange.indexedBy_append, SchemaChange.indexedBy_map_dropped, indexedBy_creations]
    rfl
  refine ⟨hdropped, ?_, hcreated, hindexed, fun name index => ?_⟩
  · rw [hdropped]
    exact (Contents.pairwise_names hold.ordered).filter _
  · rw [hindexed]
    exact h.mem_missing

/-! ### Reconciliation -/

theorem eq_text_of_nameOf {fault : ArgumentFault} {v : Value} {s : String}
    (h : nameOf fault v = .ok s) : v = .text s := by
  unfold nameOf at h
  split at h
  · split at h
    · cases h
    · cases h
      rfl
  · cases h

/-- The names of a schema are the keys of the mapping that it was read from. -/
theorem map_text_names_of_ofValue {members : List (Value × Value)}
    (h : ofValue (.dict members) = .ok schema) : schema.names.map .text = members.map Prod.fst := by
  change members.mapM (fun m => collectionOf m.1 m.2) = .ok schema at h
  induction members generalizing schema with
  | nil =>
      cases h
      rfl
  | cons m rest ih =>
      rw [List.mapM_cons] at h
      obtain ⟨d, hd, h⟩ := bind_eq_ok_iff.1 h
      obtain ⟨schema, hrest, h⟩ := bind_eq_ok_iff.1 h
      cases h
      obtain ⟨name, hname, hd⟩ := bind_eq_ok_iff.1 hd
      obtain ⟨_, _, hd⟩ := bind_eq_ok_iff.1 hd
      obtain ⟨_, _, hd⟩ := bind_eq_ok_iff.1 hd
      obtain ⟨_, _, hd⟩ := bind_eq_ok_iff.1 hd
      obtain ⟨_, _, hd⟩ := bind_eq_ok_iff.1 hd
      obtain ⟨_, _, hd⟩ := bind_eq_ok_iff.1 hd
      cases hd
      rw [List.map_cons, eq_text_of_nameOf hname, ← ih hrest]
      rfl

section

variable {e : Engine} {tx : Nat} {s : Store} (hs : e.draft? tx = some s)
  (hmode : (e.transaction tx).mode = .versionchange)

include hs hmode

theorem exists_of_reconcile {t : Reconciling} (hk : s.contents.IsOrdered) (hnames : schema.names.Nodup)
    (h : schema.reconcile tx ⟨e, []⟩ = .ok () t) :
    ∃ new scope, schema.IsBuilt (s.contents.without (schema.undeclared s.contents.names)) new ∧
      t = ⟨e.upgraded tx s new scope, (schema.undeclared s.contents.names).map .dropped ++
        schema.creations s.contents⟩ := by
  have hall : ∀ name ∈ s.contents.names, s.contents.contains name = true :=
    fun name => (Contents.mem_names_iff hk).1
  rw [← Engine.upgraded_self hs] at h
  unfold reconcile at h
  rw [bind_of_ok (Reconciliation.engine_run (Action.collectionNames_upgraded hs) []),
    bind_of_ok (Reconciliation.drop_run hs schema hall (Contents.nodup_names hk) _ _),
    bind_of_ok (Reconciliation.engine_run (Action.collectionNames_upgraded hs) _)] at h
  have hexisting (name : String) :
      (s.contents.without (schema.undeclared s.contents.names)).names.contains name =
        (s.contents.without (schema.undeclared s.contents.names)).contains name := by
    rw [Bool.eq_iff_iff, List.contains_iff_mem]
    exact Contents.mem_names_iff (Contents.isOrdered_without hk _)
  obtain ⟨new, scope, hbuilt, rfl⟩ := Reconciliation.exists_of_create hs hmode
    (Contents.isOrdered_without hk _) hnames (fun name _ => hexisting name) h
  refine ⟨new, scope, hbuilt, ?_⟩
  rw [creations_congr fun name hname => get_of_mem_names hname s.contents _]
  rfl

/-- Contents that have a schema are left as they are. -/
theorem reconcile_run_of_isReached (h : schema.IsReached old s.contents) :
    ∃ scope, schema.reconcile tx ⟨e, []⟩ = .ok () ⟨e.rescope tx scope, []⟩ := by
  have hk := h.coherent.ordered
  have hnone : schema.undeclared s.contents.names = [] := by
    refine List.filter_eq_nil_iff.2 fun name hname => ?_
    rw [isNone_lookup_iff, not_not]
    exact (h.names name).1 hname
  have hthere : ∀ d ∈ schema, s.contents.names.contains d.1 = true ∧ d.1 ∈ s.contents.names ∧
      d.2.missing (s.contents.get d.1) = [] := by
    intro d hd
    have hname := (h.names d.1).2 (List.mem_map_of_mem hd)
    refine ⟨List.contains_iff_mem.2 hname, hname, ?_⟩
    refine List.eq_nil_iff_forall_not_mem.2 fun i hi => ?_
    obtain ⟨hi, hnew⟩ := CollectionSpec.mem_missing.1 hi
    exact hnew (h.declared d hd i hi)
  have hdrop := Reconciliation.drop_run hs schema (fun name => (Contents.mem_names_iff hk).1)
    (Contents.nodup_names hk) (e.transaction tx).scope []
  rw [hnone] at hdrop
  obtain ⟨scope, hcreate⟩ := Reconciliation.create_run hs hmode hk hthere (e.transaction tx).scope []
  refine ⟨scope, ?_⟩
  have hend : e.upgraded tx s s.contents scope = e.rescope tx scope := by
    rw [Engine.upgraded, Engine.redraft_self hs]
  rw [← hend, ← hcreate]
  conv_lhs => rw [← Engine.upgraded_self hs]
  unfold reconcile
  rw [bind_of_ok (Reconciliation.engine_run (Action.collectionNames_upgraded hs) []), bind_of_ok hdrop]
  exact bind_of_ok (Reconciliation.engine_run (Action.collectionNames_upgraded hs) []) _

end

/-- A schema that succeeds in an upgrade is reached, with all that was to be kept; the changes that are
noted are those that were made. Once it is reached, it succeeds again and changes nothing. -/
theorem reconcile_reaches_schema {e d : Engine} {tx : Nat} {s : Store}
    {members : List (Value × Value)} {changes : List SchemaChange} (hs : e.draft? tx = some s)
    (hmode : (e.transaction tx).mode = .versionchange) (hold : s.contents.IsCoherent)
    (hmembers : (members.map Prod.fst).Nodup) (hschema : ofValue (.dict members) = .ok schema)
    (h : schema.reconcile tx ⟨e, []⟩ = .ok () ⟨d, changes⟩) :
    ∃ new scope, d = (e.redraft tx { s with contents := new }).rescope tx scope ∧
      schema.IsReached s.contents new ∧ schema.IsReported s.contents new changes ∧
      ∀ f tx' s', f.draft? tx' = some s' → s'.contents = new →
        (f.transaction tx').mode = .versionchange →
          ∃ scope', schema.reconcile tx' ⟨f, []⟩ = .ok () ⟨f.rescope tx' scope', []⟩ := by
  have hnames : schema.names.Nodup := by
    rw [← map_text_names_of_ofValue hschema] at hmembers
    exact hmembers.of_map _
  obtain ⟨new, scope, hbuilt, hend⟩ := exists_of_reconcile hs hmode hold.ordered hnames h
  cases hend
  have hreached := hbuilt.isReached hold
  refine ⟨new, scope, rfl, hreached, hreached.isReported hold, ?_⟩
  rintro f tx' s' hs' rfl hmode'
  exact reconcile_run_of_isReached hs' hmode' hreached

/-- Two collections, one of them with a record. -/
def library : Contents :=
  ⟨[("desk", ⟨some ⟨⟨none, false⟩, 0⟩, [], []⟩),
    ("shelf", ⟨some ⟨⟨none, true⟩, 1⟩, [], [([1], "\x7b\"title\":\"a\"\x7d")]⟩)]⟩

/-- The upgrade of a store that holds them. -/
def libraryUpgrade : Engine :=
  { Engine.initial with
    connections := [⟨"path", 2, false, [], [], .writing ⟨1, library⟩⟩]
    transactions := [⟨0, [], .versionchange, true, true⟩] }

def libraryMembers : List (Value × Value) :=
  [(.text "shelf", .dict [(.text "indexes", .dict [(.text "title", .null)])]),
    (.text "cellar", .null)]

def librarySchema : Schema :=
  [("shelf", ⟨⟨none, false⟩, [("title", ⟨some (.single "title"), false, false⟩)]⟩),
    ("cellar", ⟨⟨none, false⟩, []⟩)]

theorem isCoherent_library : library.IsCoherent := by
  have hordered : library.IsOrdered := by
    refine List.pairwise_pair.2 ?_
    decide
  refine Contents.isCoherent_of_rows hordered ?_
  intro row hrow
  rcases List.mem_pair.1 hrow with rfl | rfl
  · exact ⟨rfl, Collection.isConsistent_empty.congr rfl rfl⟩
  · have hloads : (Value.loads "\x7b\"title\":\"a\"\x7d").toOption.isSome = true := by decide +kernel
    obtain ⟨v, hv⟩ := Option.isSome_iff_exists.1 hloads
    refine ⟨rfl, List.pairwise_singleton _ _, fun r hr => ?_, List.nodup_nil, nofun⟩
    rw [List.mem_singleton.1 hr]
    exact ⟨v, eq_ok_of_toOption hv⟩

/-- One collection is dropped, one is made and one gets an index of its record. -/
theorem reconcile_reaches_schema_library : ∃ d changes new scope,
    librarySchema.reconcile 0 ⟨libraryUpgrade, []⟩ = .ok () ⟨d, changes⟩ ∧
      d = (libraryUpgrade.redraft 0 ⟨1, new⟩).rescope 0 scope ∧
      librarySchema.IsReached library new ∧ librarySchema.IsReported library new changes := by
  have hok : ((librarySchema.reconcile 0).result? ⟨libraryUpgrade, []⟩).isSome = true := by
    decide +kernel
  obtain ⟨_, hresult⟩ := Option.isSome_iff_exists.1 hok
  obtain ⟨⟨d, changes⟩, h⟩ := exists_ok_of_result? hresult
  have hmembers : (libraryMembers.map Prod.fst).Nodup := by simp [libraryMembers]
  obtain ⟨new, scope, hd, hreached, hreported, _⟩ := reconcile_reaches_schema (s := ⟨1, library⟩) rfl
    rfl isCoherent_library hmembers rfl h
  exact ⟨d, changes, new, scope, h, hd, hreached, hreported⟩

end Schema
end RecordStore
