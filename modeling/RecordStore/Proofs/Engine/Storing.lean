import RecordStore.Proofs.Collection.HandedBack
import RecordStore.Proofs.Engine.Refinement

/-!
What keeps valid input from being stored. A record that came back from storage and a key that can be encoded
are refused by no check that a collection without unique indexes makes; but two later steps can still fail.
A generator of keys counts no key below what the storage can count, and an index takes whole numbers that
pass the check for keys and are too large to be encoded. Where neither is met, the record is stored.
-/

namespace RecordStore

open Effect

namespace Value

/-- A whole number in a value, possibly in lists and tuples, is beyond the doubles. -/
inductive HoldsHuge : Value → Prop
  | int {n : Int} : Double.ofInt? n = none → HoldsHuge (.int n)
  | list {items : List Value} {v : Value} : v ∈ items → HoldsHuge v → HoldsHuge (.list items)
  | tuple {items : List Value} {v : Value} : v ∈ items → HoldsHuge v → HoldsHuge (.tuple items)

theorem holdsHuge_list_iff {items : List Value} : (list items).HoldsHuge ↔ ∃ v ∈ items, v.HoldsHuge := by
  constructor
  · rintro (_ | ⟨hmem, hv⟩)
    exact ⟨_, hmem, hv⟩
  · rintro ⟨v, hmem, hv⟩
    exact .list hmem hv

theorem holdsHuge_tuple_iff {items : List Value} : (tuple items).HoldsHuge ↔ ∃ v ∈ items, v.HoldsHuge := by
  constructor
  · rintro (_ | _ | ⟨hmem, hv⟩)
    exact ⟨_, hmem, hv⟩
  · rintro ⟨v, hmem, hv⟩
    exact .tuple hmem hv

/-- A generator of keys can count a key: it is no number, or not below what the storage can count. -/
def IsCountable : Value → Prop
  | .int n => -(2 ^ 63) ≤ n
  | .float x => if x.isInfinite then x.isNegative = false else -(2 ^ 63) ≤ x.truncate
  | _ => True

end Value

/-- The primary key of a record that is to be stored: with a key path it is found in the record, and else it
is given. -/
def Keying.Gives (keying : Keying) (record given key : Value) : Prop :=
  match keying.keyPath with
  | some path => given = .null ∧ path.find? record = some key
  | none => given = key

namespace IndexSpec

/-- The values of a record that an index takes as keys if they are valid ones. -/
def candidates (spec : IndexSpec) (record : Value) : List Value :=
  match spec.keyPath.bind (·.find? record), spec.multiEntry with
  | none, _ => []
  | some (.list items), true => items
  | some (.tuple items), true => items
  | some found, _ => [found]

/-- An index has a key path, and can encode the valid keys that it takes of a record. -/
structure CanTake (spec : IndexSpec) (record : Value) : Prop where
  hasPath : spec.keyPath ≠ none
  encodes : ∀ v ∈ spec.candidates record, v.isValidKey = true → ¬v.HoldsHuge

end IndexSpec

/-! ### Keys that cannot be encoded -/

namespace Key

mutual

theorem exists_convert_iff : ∀ {v : Value}, (∃ k, convert v = .ok k) ↔ ¬v.HoldsHuge
  | .int n => by
    rw [convert]
    cases h : Double.ofInt? n with
    | none => exact iff_of_false nofun (not_not_intro (.int h))
    | some x =>
        refine iff_of_true ⟨_, rfl⟩ ?_
        rintro ⟨hn⟩
        rw [h] at hn
        cases hn
  | .list items => by
    have hitems : (∃ ks, convertAll items = .ok ks) ↔ ∀ v ∈ items, ¬v.HoldsHuge := exists_convertAll_iff
    rw [Value.holdsHuge_list_iff, convert]
    simpa [map_eq_ok_iff] using hitems
  | .tuple items => by
    have hitems : (∃ ks, convertAll items = .ok ks) ↔ ∀ v ∈ items, ¬v.HoldsHuge := exists_convertAll_iff
    rw [Value.holdsHuge_tuple_iff, convert]
    simpa [map_eq_ok_iff] using hitems
  | .null | .bool _ | .float _ | .text _ | .bytes _ | .date _ | .set _ | .dict _ | .ellipsis
  | .descriptor _ | .keyRange _ | .bare _ | .keyed _ _ | .callable _ => iff_of_true ⟨_, rfl⟩ nofun

theorem exists_convertAll_iff : ∀ {items : List Value},
    (∃ ks, convertAll items = .ok ks) ↔ ∀ v ∈ items, ¬v.HoldsHuge
  | [] => iff_of_true ⟨_, rfl⟩ nofun
  | v :: rest => by
    rw [List.forall_mem_cons, ← exists_convert_iff, ← exists_convertAll_iff, convertAll]
    constructor
    · rintro ⟨ks, h⟩
      obtain ⟨k, hk, h⟩ := bind_eq_ok_iff.1 h
      obtain ⟨ks, hks, _⟩ := bind_eq_ok_iff.1 h
      exact ⟨⟨k, hk⟩, ks, hks⟩
    · rintro ⟨⟨k, hk⟩, ks, hks⟩
      rw [hk, hks]
      exact ⟨_, rfl⟩

end

end Key

namespace Value

variable {v : Value}

theorem isValidKey_iff : v.isValidKey = true ↔ Key.check 0 v = .ok () := by
  rw [isValidKey]
  cases Key.check 0 v <;> simp [Except.isOk, Except.toBool]

/-- A valid key can be encoded unless it holds a number that is too large, and fails for nothing else. -/
theorem exists_encodeKey_iff (h : v.isValidKey = true) : (∃ b, v.encodeKey = .ok b) ↔ ¬v.HoldsHuge := by
  rw [isValidKey_iff] at h
  rw [← Key.exists_convert_iff]
  simp [encodeKey_eq_ok_iff, Key.ofValue_eq_ok_iff, h]

theorem exists_fault_of_holdsHuge (h : v.isValidKey = true) (hv : v.HoldsHuge) :
    ∃ f, v.encodeKey = .error (.format f) := by
  have hnone : ¬∃ k, Key.convert v = .ok k := by rwa [Key.exists_convert_iff, not_not]
  rw [encodeKey, Key.ofValue, isValidKey_iff.1 h]
  cases hconvert : Key.convert v with
  | ok k => exact absurd ⟨k, hconvert⟩ hnone
  | error f => exact ⟨f, rfl⟩

end Value

/-! ### The keys of an index -/

/-- A part succeeds exactly on a condition, and fails for no reason of the store's own. -/
structure SucceedsIff {α : Type} (r : Except Failure α) (p : Prop) : Prop where
  ok : p → ∃ a, r = .ok a
  error : ¬p → ∃ f, r = .error (.format f)

namespace SucceedsIff

variable {α β : Type} {r : Except Failure α} {p q : Prop}

theorem congr (h : SucceedsIff r p) (hpq : p ↔ q) : SucceedsIff r q := by rwa [← hpq]

theorem of_ok (a : α) : SucceedsIff (.ok a) True := ⟨fun _ => ⟨a, rfl⟩, fun h => (h trivial).elim⟩

theorem iff (h : SucceedsIff r p) : (∃ a, r = .ok a) ↔ p := by
  refine ⟨fun ⟨a, ha⟩ => ?_, h.ok⟩
  by_contra hp
  obtain ⟨f, hf⟩ := h.error hp
  rw [ha] at hf
  cases hf

/-- A chain succeeds when its first part and what follows do. -/
theorem bind (h : SucceedsIff r p) {g : α → Except Failure β} (hg : ∀ a, SucceedsIff (g a) q) :
    SucceedsIff (r >>= g) (p ∧ q) := by
  constructor
  · rintro ⟨hp, hq⟩
    obtain ⟨a, rfl⟩ := h.ok hp
    exact (hg a).ok hq
  · intro hpq
    by_cases hp : p
    · obtain ⟨a, rfl⟩ := h.ok hp
      exact (hg a).error fun hq => hpq ⟨hp, hq⟩
    · obtain ⟨f, rfl⟩ := h.error hp
      exact ⟨f, rfl⟩

theorem map (h : SucceedsIff r p) (g : α → β) : SucceedsIff (r.map g) p := by
  constructor
  · intro hp
    obtain ⟨a, rfl⟩ := h.ok hp
    exact ⟨g a, rfl⟩
  · intro hp
    obtain ⟨f, rfl⟩ := h.error hp
    exact ⟨f, rfl⟩

end SucceedsIff

theorem Value.succeedsIff_encodeKey {v : Value} (h : v.isValidKey = true) :
    SucceedsIff v.encodeKey ¬v.HoldsHuge where
  ok := (exists_encodeKey_iff h).2
  error hv := exists_fault_of_holdsHuge h (not_not.1 hv)

namespace IndexSpec

variable {spec : IndexSpec} {record : Value}

theorem succeedsIff_itemKeys (items : List Value) :
    SucceedsIff (itemKeys items) (∀ v ∈ items, v.isValidKey = true → ¬v.HoldsHuge) := by
  induction items with
  | nil => exact (SucceedsIff.of_ok _).congr (by simp)
  | cons v rest ih =>
      rw [itemKeys]
      split
      · next hvalid =>
        refine ((Value.succeedsIff_encodeKey hvalid).bind fun _ => ih.bind fun _ =>
          SucceedsIff.of_ok _).congr ?_
        simp [hvalid]
      · next hvalid => exact ih.congr (by simp [hvalid])

theorem succeedsIff_single (v : Value) :
    SucceedsIff (if v.isValidKey then v.encodeKey.map ([·]) else .ok [])
      (∀ w ∈ [v], w.isValidKey = true → ¬w.HoldsHuge) := by
  split
  · next hvalid => exact ((Value.succeedsIff_encodeKey hvalid).map _).congr (by simp [hvalid])
  · next hvalid => exact (SucceedsIff.of_ok _).congr (by simp [hvalid])

theorem succeedsIff_keysFor (spec : IndexSpec) (record : Value) :
    SucceedsIff (spec.keysFor record) (spec.CanTake record) := by
  rw [keysFor]
  split
  · next hpath => exact ⟨fun h => absurd hpath h.hasPath, fun _ => ⟨_, rfl⟩⟩
  · next path hpath =>
    have hiff : spec.CanTake record ↔
        ∀ v ∈ spec.candidates record, v.isValidKey = true → ¬v.HoldsHuge :=
      ⟨CanTake.encodes, fun h => ⟨by simp [hpath], h⟩⟩
    rw [hiff, candidates, hpath, Option.bind_some]
    generalize path.find? record = found, spec.multiEntry = multi
    cases found with
    | none => exact (SucceedsIff.of_ok _).congr (by simp)
    | some found =>
        cases found with
        | list items | tuple items =>
            cases multi with
            | true => exact succeedsIff_itemKeys items
            | false => exact succeedsIff_single _
        | _ => exact succeedsIff_single _

end IndexSpec

/-! ### Writing -/

namespace Collection

variable {c : Collection} {name : String} {keying : Keying} {value given record k : Value} {b : Bytes}

theorem succeedsIff_planEntries (b : Bytes) (record : Value) {indexes : List Index}
    (hunique : ∀ i ∈ indexes, i.spec.unique = false) :
    SucceedsIff (planEntries b record indexes) (∀ i ∈ indexes, i.spec.CanTake record) := by
  induction indexes with
  | nil => exact (SucceedsIff.of_ok _).congr (by simp)
  | cons i rest ih =>
      obtain ⟨hi, hrest⟩ := List.forall_mem_cons.1 hunique
      have hcheck (keys : List Bytes) : SucceedsIff (i.checkAllUnique b keys) True := by
        have hchecked : i.checkAllUnique b keys = .ok () :=
          checkAllUnique_of_checkUnique fun key _ => by simp [Index.checkUnique, hi]
        rw [hchecked]
        exact .of_ok _
      rw [planEntries]
      refine ((IndexSpec.succeedsIff_keysFor i.spec record).bind fun keys => (hcheck keys).bind fun _ =>
        (ih hrest).bind fun _ => SucceedsIff.of_ok _).congr ?_
      simp

theorem succeedsIff_plan (hencode : k.encodeKey = .ok b) (hstored : record.IsStored)
    (hunique : ∀ i ∈ c.indexes, i.spec.unique = false) :
    SucceedsIff (c.plan name k record true) (∀ i ∈ c.indexes, i.spec.CanTake record) := by
  obtain ⟨text, hdumps, _⟩ := Value.loads_dumps hstored
  rw [plan, hencode, ok_bind]
  dsimp only
  rw [Bool.not_true, Bool.and_false, if_neg Bool.false_ne_true, hdumps]
  exact ((succeedsIff_planEntries b record hunique).bind fun entries => SucceedsIff.of_ok _).congr
    (by simp)

/-- A generator is raised to every whole number that the storage can count. -/
theorem raiseGenerator_of_floor {n : Int} (hauto : keying.autoIncrement = true)
    (hfloor : generatorFloor k = .ok (some n)) (c : Collection) :
    SucceedsIff (Key.formatResult (c.raiseGenerator keying k).1) (-(2 ^ 63) ≤ n) := by
  rw [raiseGenerator, hauto, hfloor]
  simp only [Bool.not_true, Bool.false_eq_true, if_false]
  split
  · exact ⟨fun hle => by omega, fun _ => ⟨_, rfl⟩⟩
  · exact ⟨fun _ => ⟨_, rfl⟩, fun hlt => by omega⟩

theorem succeedsIff_raiseGenerator (c : Collection) (keying : Keying) (k : Value) :
    SucceedsIff (Key.formatResult (c.raiseGenerator keying k).1)
      (keying.autoIncrement = true → k.IsCountable) := by
  cases hauto : keying.autoIncrement with
  | false =>
      rw [raiseGenerator, hauto]
      exact (SucceedsIff.of_ok _).congr (by simp)
  | true =>
      suffices h : SucceedsIff (Key.formatResult (c.raiseGenerator keying k).1) k.IsCountable from
        h.congr (by simp)
      cases k with
      | int n =>
          refine (raiseGenerator_of_floor hauto rfl c).congr ?_
          rw [Value.IsCountable, maxGenerated]
          omega
      | float x =>
          rw [Value.IsCountable]
          by_cases hinfinite : x.isInfinite = true
          · rw [if_pos hinfinite]
            cases hnegative : x.isNegative with
            | true =>
                rw [raiseGenerator, hauto]
                simp only [Bool.not_true, Bool.false_eq_true, if_false, generatorFloor, hinfinite, if_true,
                  hnegative]
                exact ⟨fun hpositive => absurd hpositive (by decide), fun _ => ⟨_, rfl⟩⟩
            | false =>
                have hfloor : generatorFloor (.float x) = .ok (some maxGenerated) := by
                  simp [generatorFloor, hinfinite, hnegative]
                exact (raiseGenerator_of_floor hauto hfloor c).congr (by rw [maxGenerated]; simp)
          · have hfloor : generatorFloor (.float x) = .ok (some (min x.truncate maxGenerated)) := by
              simp [generatorFloor, hinfinite]
            rw [if_neg hinfinite]
            refine (raiseGenerator_of_floor hauto hfloor c).congr ?_
            rw [maxGenerated]
            omega
      | _ =>
          rw [raiseGenerator, hauto]
          exact SucceedsIff.of_ok _

/-- The key that a record has is used for it. -/
theorem resolveKey_of_gives (hgives : keying.Gives record given k) (hvalid : k.isValidKey = true)
    (hnull : k.isNull = false) : c.resolveKey name keying record given = c.useKey keying k record := by
  rw [Keying.Gives] at hgives
  rw [resolveKey]
  cases hpath : keying.keyPath with
  | some path =>
      rw [hpath] at hgives
      obtain ⟨rfl, hfind⟩ := hgives
      simp [Value.isNull, hfind, hvalid]
  | none =>
      rw [hpath] at hgives
      obtain rfl : given = k := hgives
      simp [hnull, hvalid]

/-- No step of a write is in the way of a record and its key. -/
structure CanStore (c : Collection) (keying : Keying) (record key : Value) : Prop where
  counts : keying.autoIncrement = true → key.IsCountable
  takes : ∀ i ∈ c.indexes, i.spec.CanTake record

section Write

variable (hunique : ∀ i ∈ c.indexes, i.spec.unique = false) (hclone : value.clone = .ok record)
  (hgives : keying.Gives record given k) (hencode : k.encodeKey = .ok b)

include hclone hgives hencode

/-- A write that succeeds puts the record under its key. -/
theorem write_of_gives {a : Value} {d : Collection} {overwrite : Bool}
    (h : c.write name keying value given overwrite = (.ok a, d)) :
    a = k ∧ d.view = Function.update c.view b (some record) := by
  rcases write_cases h with ⟨_, hf, _⟩ | ⟨k', record', v, c', p, hclone', hk, hsame, hresolve, hplan, rfl⟩
  · cases hf
  cases hk
  cases hclone.symm.trans hclone'
  rw [resolveKey_of_gives hgives (Value.isValidKey_of_encodeKey hencode)
    (isNull_of_encodeKey hencode)] at hresolve
  rcases (useKey_cases hresolve).2 with ⟨_, hf⟩ | hok
  · cases hf
  cases hok
  obtain ⟨hencode', _, _, _, hdumps⟩ := plan_spec hplan
  cases hencode.symm.trans hencode'
  have hloads := Value.loads_of_dumps (Value.isStored_of_clone hclone) hdumps
  exact ⟨rfl, by rw [view_carryOut hloads, view_congr hsame.records]⟩

include hunique

theorem succeedsIff_write :
    SucceedsIff (c.write name keying value given true).1 (c.CanStore keying record k) := by
  have hraise := succeedsIff_raiseGenerator c keying k
  have hresolve : c.resolveKey name keying record given = c.useKey keying k record :=
    resolveKey_of_gives hgives (Value.isValidKey_of_encodeKey hencode) (isNull_of_encodeKey hencode)
  rw [write, hclone]
  dsimp only
  rw [hresolve, useKey]
  rcases h : c.raiseGenerator keying k with ⟨result, c'⟩
  rw [h] at hraise
  have hsame := sameData_raiseGenerator h
  have hplan : SucceedsIff (c'.plan name k record true) (∀ i ∈ c'.indexes, i.spec.CanTake record) :=
    succeedsIff_plan hencode (Value.isStored_of_clone hclone) (by rwa [hsame.indexes])
  rw [hsame.indexes] at hplan
  cases result with
  | error f =>
      have hnot : ¬(keying.autoIncrement = true → k.IsCountable) := fun hcounts => by
        obtain ⟨_, ha⟩ := hraise.ok hcounts
        cases ha
      exact ⟨fun hcan => absurd hcan.counts hnot, fun _ => ⟨f, rfl⟩⟩
  | ok u =>
      have hcounts : keying.autoIncrement = true → k.IsCountable := hraise.iff.1 ⟨_, rfl⟩
      dsimp only
      constructor
      · intro hcan
        obtain ⟨p, hp⟩ := hplan.ok hcan.takes
        rw [hp]
        exact ⟨k, rfl⟩
      · intro hcannot
        obtain ⟨f, hf⟩ := hplan.error fun htakes => hcannot ⟨hcounts, htakes⟩
        rw [hf]
        exact ⟨f, rfl⟩

end Write

end Collection

/-- A call to put valid input: through an active transaction that may be written to, into a collection
without unique indexes, goes a value that can be cloned, and with it a key that can be encoded. -/
structure StoreRef.PutsValid (r : StoreRef) (e : Engine) (s : Store) (value given record key : Value)
    (encoded : Bytes) : Prop where
  draft : e.draft? r.transaction = some s
  writable : (e.transaction r.transaction).mode ≠ .readonly
  notUnique : ∀ i ∈ (s.contents.get r.name).indexes, i.spec.unique = false
  clone : value.clone = .ok record
  gives : r.keying.Gives record given key
  encodes : key.encodeKey = .ok encoded

namespace StoreRef

variable {e : Engine} {r : StoreRef} {s : Store} {value given record k : Value} {b : Bytes}

theorem PutsValid.succeedsIff (h : r.PutsValid e s value given record k b) :
    SucceedsIff ((s.contents.get r.name).write r.name r.keying value given true).1
      ((s.contents.get r.name).CanStore r.keying record k) :=
  Collection.succeedsIff_write h.notUnique h.clone h.gives h.encodes

theorem PutsValid.put_fails (h : r.PutsValid e s value given record k b)
    (hcannot : ¬(s.contents.get r.name).CanStore r.keying record k) :
    ∃ f d, r.put value given e = .error (.format f) d := by
  obtain ⟨f, hf⟩ := h.succeedsIff.error hcannot
  rw [put, write_of_draft h.draft h.writable]
  exact ⟨f, _, ending_eq_error_iff.2 ⟨hf, rfl⟩⟩

/-- A collection that generates keys, in the upgrade that makes it. -/
def ledger : StoreRef := ⟨0, "ledger", ⟨none, true⟩⟩

/-- That upgrade, with an index of amounts. -/
def ledgerDrafted : Engine :=
  Engine.initial.afterCalls [.beginOpen "path" (.int 1) none,
    .createCollection 0 (.text "ledger") .null (.bool true),
    .createIndex ledger (.text "amount") (.text "amount") (.bool false) (.bool false)]

/-- A record with an amount. -/
def booking (amount : Int) : Value := .dict [(.text "amount", .int amount)]

theorem clone_booking {amount : Int}
    (h : (Decimal.digitsOf amount.natAbs).length ≤ Document.maxDigits) :
    (booking amount).clone = .ok (booking amount) := by
  refine Value.clone_of_isStored ⟨⟨h, rfl, trivial⟩, ?_⟩
  rintro name v ⟨⟩
  simp [Document.IsTag, Document.dateTag, Document.bytesTag, Document.setTag]

/-- The key of seven. -/
def sevenKey : Bytes := [16, 192, 28, 0, 0, 0, 0, 0, 0]

theorem encodeKey_seven : (Value.int 7).encodeKey = .ok sevenKey := eq_ok_of_toOption (by decide +kernel)

theorem exists_draft_ledger : ∃ s, ledgerDrafted.draft? ledger.transaction = some s ∧
    (s.contents.get ledger.name).indexes ≠ [] ∧
      ∀ i ∈ (s.contents.get ledger.name).indexes, i.spec = ⟨some (.single "amount"), false, false⟩ := by
  have hsome : (ledgerDrafted.draft? ledger.transaction).isSome = true := by decide +kernel
  have hone : ∀ s ∈ ledgerDrafted.draft? ledger.transaction,
      (s.contents.get ledger.name).indexes.length = 1 := by decide +kernel
  have hindexes : ∀ s ∈ ledgerDrafted.draft? ledger.transaction,
      ∀ i ∈ (s.contents.get ledger.name).indexes, i.spec.keyPath = some (.single "amount") ∧
        i.spec.unique = false ∧ i.spec.multiEntry = false := by decide +kernel
  obtain ⟨s, hs⟩ := Option.isSome_iff_exists.1 hsome
  refine ⟨s, hs, List.ne_nil_of_length_eq_add_one (hone s hs), fun i hi => ?_⟩
  obtain ⟨hpath, hunique, hmulti⟩ := hindexes s hs i hi
  obtain ⟨_, ⟨_, _, _⟩, _⟩ := i
  cases hpath
  cases hunique
  cases hmulti
  rfl

theorem putsValid_booking (amount : Int) {key : Int} (hs : ledgerDrafted.draft? ledger.transaction = some s)
    (hspec : ∀ i ∈ (s.contents.get ledger.name).indexes,
      i.spec = ⟨some (.single "amount"), false, false⟩)
    (hdigits : (Decimal.digitsOf amount.natAbs).length ≤ Document.maxDigits)
    (hkey : (Value.int key).encodeKey = .ok b) :
    ledger.PutsValid ledgerDrafted s (booking amount) (.int key) (booking amount) (.int key) b where
  draft := hs
  writable := by decide +kernel
  notUnique i hi := by rw [hspec i hi]
  clone := clone_booking hdigits
  gives := rfl
  encodes := hkey

/-- The index takes an amount that is not too large. -/
theorem canTake_booking_iff {amount : Int} :
    IndexSpec.CanTake ⟨some (.single "amount"), false, false⟩ (booking amount) ↔
      Double.ofInt? amount ≠ none := by
  constructor
  · intro h hnone
    exact h.encodes (.int amount) List.mem_cons_self rfl (.int hnone)
  · intro h
    refine ⟨nofun, ?_⟩
    rintro v hv _ hhuge
    obtain rfl : v = .int amount := List.mem_singleton.1 hv
    obtain ⟨hnone⟩ := hhuge
    exact h hnone

end StoreRef
end RecordStore
