import RecordStore.Proofs.Collection.Duplicates
import RecordStore.Proofs.Collection.History
import RecordStore.Proofs.Key.Order
import RecordStore.Proofs.Number.WholeNumbers

/-!
Generated keys are fresh. The last key that was generated is a mark that stays ahead of the numbers
among the keys: whatever number is used for a key, no whole number beyond the mark is at or below
it. So what is generated next is above all of them, and above what was generated before.
-/

namespace RecordStore

/-- A record that is written with a key calls for a generated one: none is given, and none is in the
record. -/
def Keying.callsFor (k : Keying) (record key : Value) : Bool :=
  k.autoIncrement && key.isNull && k.keyPath.all fun path => (path.find? record).isNone

/-- Whatever is generated from here on is above a number. -/
def Header.IsAheadOf (h : Header) (x : Double) : Prop :=
  ∀ n, h.lastKey < n → n ≤ Collection.maxGenerated → x.IsBelow n

namespace Collection

variable {c d : Collection} {handed : List Nat} {name : String} {keying : Keying}
  {value record key : Value} {overwrite : Bool} {n : Nat}

/-- The key that a write makes the generator hand out. -/
def handedOut? (c : Collection) (keying : Keying) (value key : Value) : Option Nat :=
  match value.clone with
  | .error _ => none
  | .ok record => if keying.callsFor record key then c.generate.1.toOption else none

/-- The keys that were handed out in a collection, after a change of it. A collection that is made
anew starts over. -/
def handedAfter (c : Collection) (handed : List Nat) : Change → List Nat
  | .create _ | .drop => []
  | .write keying value key _ => (c.handedOut? keying value key).toList ++ handed
  | _ => handed

/-- The generator of a collection is ahead of the numbers among its keys and of some keys that were
handed out. -/
structure IsAhead (c : Collection) (handed : List Nat) : Prop where
  numbers : ∀ h ∈ c.header, h.keying.autoIncrement = true → ∀ r ∈ c.records, ∀ x : Double,
    x.isNaN = false → r.1 = Key.encode (.number x) → h.IsAheadOf x
  handed : ∀ h ∈ c.header, ∀ n ∈ handed, n ≤ h.lastKey
  absent : c.header = none → c.records = []

theorem isAhead_empty : empty.IsAhead [] := ⟨nofun, nofun, fun _ => rfl⟩

/-- The mark may move on, and records may go. -/
theorem IsAhead.mono (h : c.IsAhead handed) (hrecords : ∀ r ∈ d.records, r ∈ c.records)
    (hkeying : d.header.map Header.keying = c.header.map Header.keying)
    (hlast : ∀ h ∈ c.header, ∀ h' ∈ d.header, h.lastKey ≤ h'.lastKey) : d.IsAhead handed := by
  have hheader : ∀ h' ∈ d.header, ∃ h ∈ c.header, h.keying = h'.keying ∧ h.lastKey ≤ h'.lastKey := by
    intro h' hd
    have hmap : c.header.map Header.keying = some h'.keying := by
      rw [← hkeying, Option.mem_def.1 hd]
      rfl
    obtain ⟨old, hold, heq⟩ := Option.map_eq_some_iff.1 hmap
    exact ⟨old, hold, heq, hlast old hold h' hd⟩
  refine ⟨fun h' hd hauto r hr x hx heq n hn => ?_, fun h' hd n hn => ?_, fun hnone => ?_⟩
  · obtain ⟨old, hold, hk, hle⟩ := hheader h' hd
    exact h.numbers old hold (hk ▸ hauto) r (hrecords r hr) x hx heq n (hle.trans_lt hn)
  · obtain ⟨old, hold, _, hle⟩ := hheader h' hd
    exact (h.handed old hold n hn).trans hle
  · have habsent : c.header = none := by
      rw [hnone, Option.map_none] at hkeying
      exact Option.map_eq_none_iff.1 hkeying.symm
    have hnil := h.absent habsent
    refine List.eq_nil_iff_forall_not_mem.2 fun r hr => ?_
    have hmem := hrecords r hr
    rw [hnil] at hmem
    exact List.not_mem_nil hmem

theorem IsAhead.sameData (h : c.IsAhead handed) (hsame : SameData c d) : d.IsAhead handed :=
  h.mono (fun _ hr => hsame.records ▸ hr) hsame.keying hsame.lastKey

/-! ### Keys that callers give -/

/-- The floor of a number that is a key keeps the generator ahead of the number. -/
theorem isBelow_of_generatorFloor {floor : Option Int} {x : Double}
    (hfloor : generatorFloor key = .ok floor) (hx : Key.ofValue key = .ok (.number x)) :
    ∃ m, floor = some m ∧ ∀ n : Nat, m.toNat < n → n ≤ maxGenerated → x.IsBelow n := by
  have hconvert := (Key.ofValue_eq_ok_iff.1 hx).2
  have hmax : ((maxGenerated : Nat) : Int) = 2 ^ 53 := rfl
  cases key with
  | int k =>
      cases hfloor
      refine ⟨_, rfl, fun n hn hle => ?_⟩
      have hround : Double.ofInt? k = some x := by
        simp only [Key.convert] at hconvert
        split at hconvert
        · cases hconvert
          assumption
        · cases hconvert
      have hk : k < n := by omega
      exact Double.isBelow_of_ofInt? hround (by omega) hk hle
  | float y =>
      cases hconvert
      have hnan := Key.isOrdered_of_ofValue hx
      simp only [generatorFloor] at hfloor
      split at hfloor
      · split at hfloor
        · cases hfloor
        · cases hfloor
          refine ⟨_, rfl, fun n hn hle => ?_⟩
          rw [Int.toNat_natCast] at hn
          exact absurd hle (Nat.not_le.2 hn)
      · next hinf =>
        cases hfloor
        refine ⟨_, rfl, fun n hn hle => ?_⟩
        have hfinite : x.isFinite = true := by
          simp only [Key.IsOrdered, Double.isNaN_eq_false_iff] at hnan
          rw [Double.isInfinite_iff] at hinf
          exact Double.isFinite_iff.2 (lt_of_le_of_ne hnan hinf)
        exact Double.isBelow_of_truncate hfinite (by omega) (by omega)
  | list items =>
      obtain ⟨_, _, hk⟩ := map_eq_ok_iff.1 hconvert
      cases hk
  | tuple items =>
      obtain ⟨_, _, hk⟩ := map_eq_ok_iff.1 hconvert
      cases hk
  | _ => cases hconvert

/-- A generator that is moved up to a key is ahead of it. -/
theorem isAheadOf_raiseGenerator (hauto : keying.autoIncrement = true)
    (h : c.raiseGenerator keying key = (.ok (), d)) {x : Double}
    (hx : Key.ofValue key = .ok (.number x)) : ∀ header ∈ d.header, header.IsAheadOf x := by
  unfold raiseGenerator at h
  rw [if_neg (by rw [hauto]; exact Bool.false_ne_true)] at h
  cases hfloor : generatorFloor key with
  | error f =>
      rw [hfloor] at h
      cases h
  | ok floor =>
      obtain ⟨m, rfl, hbelow⟩ := isBelow_of_generatorFloor hfloor hx
      rw [hfloor] at h
      dsimp only at h
      split at h
      · cases h
      · cases h
        intro header hheader n hn hle
        obtain ⟨old, _, rfl⟩ := Option.map_eq_some_iff.1 hheader
        exact hbelow n ((Nat.le_max_right _ _).trans_lt hn) hle

/-! ### Keys that are generated -/

theorem resolveKey_of_callsFor (h : keying.callsFor record key = true) :
    c.resolveKey name keying record key = c.useGenerated keying.keyPath record := by
  rw [Keying.callsFor, Bool.and_eq_true, Bool.and_eq_true] at h
  obtain ⟨⟨hauto, hnull⟩, hpath⟩ := h
  unfold resolveKey
  cases hkeyPath : keying.keyPath with
  | none =>
      dsimp only
      rw [if_pos hnull, if_pos hauto]
  | some path =>
      rw [hkeyPath] at hpath
      dsimp only
      rw [if_neg (by simp [hnull]), Option.isNone_iff_eq_none.1 hpath]
      dsimp only
      rw [if_pos hauto]

/-- A key that is not generated is given or found, if there is one. -/
theorem resolveKey_of_not_callsFor (c : Collection) (name : String) (h : keying.callsFor record key = false) :
    (∃ f, c.resolveKey name keying record key = (.error f, c)) ∨
      ∃ k, c.resolveKey name keying record key = c.useKey keying k record := by
  unfold resolveKey
  cases hkeyPath : keying.keyPath with
  | some path =>
      dsimp only
      split
      · exact .inl ⟨_, rfl⟩
      next hnull =>
      cases hfind : path.find? record with
      | none =>
          dsimp only
          split
          · next hauto =>
            rw [Keying.callsFor, hauto, hkeyPath] at h
            simp [hfind] at h
            simp [h] at hnull
          · exact .inl ⟨_, rfl⟩
      | some found =>
          dsimp only
          split
          · exact .inr ⟨_, rfl⟩
          · exact .inl ⟨_, rfl⟩
  | none =>
      dsimp only
      split
      · next hnull =>
        split
        · next hauto =>
          rw [Keying.callsFor, hauto, hnull, hkeyPath] at h
          cases h
        · exact .inl ⟨_, rfl⟩
      · split
        · exact .inr ⟨_, rfl⟩
        · exact .inl ⟨_, rfl⟩

/-- A key that is generated is the one after the mark, which moves on to it. -/
theorem generate_spec {header : Header} (hheader : c.header = some header) (h : c.generate = (.ok n, d)) :
    n = header.lastKey + 1 ∧ n ≤ maxGenerated ∧
      d = { c with header := some { header with lastKey := n } } := by
  refine ⟨?_, le_of_generate h, ?_⟩
  all_goals
    unfold generate at h
    rw [hheader] at h
    dsimp only at h
    split at h
    · cases h
    · cases h
      rfl

/-- A key is only refused when the mark has reached the greatest one. -/
theorem generate_of_error {header : Header} (hheader : c.header = some header) {f : Failure}
    (h : c.generate = (.error f, d)) :
    f = .store .generatorExhausted ∧ d = c ∧ maxGenerated < header.lastKey + 1 := by
  unfold generate at h
  rw [hheader] at h
  dsimp only at h
  split at h
  · next hlt =>
    cases h
    exact ⟨rfl, rfl, hlt⟩
  · cases h

theorem isAhead_generate (h : c.IsAhead handed) {header : Header} (hheader : c.header = some header)
    (hg : c.generate = (.ok n, d)) : d.IsAhead (n :: handed) := by
  have hmoved := h.sameData (sameData_generate hg)
  obtain ⟨_, _, rfl⟩ := generate_spec hheader hg
  refine ⟨hmoved.numbers, fun h' hh' m hm => ?_, nofun⟩
  rcases List.mem_cons.1 hm with rfl | hm
  · cases hh'
    exact le_rfl
  · exact hmoved.handed h' hh' m hm

/-- The generator is ahead of the number that it generated. -/
theorem isAheadOf_generate {header : Header} (hheader : c.header = some header)
    (hg : c.generate = (.ok n, d)) {x : Double} (hx : Key.ofValue (.int n) = .ok (.number x)) :
    ∀ h ∈ d.header, h.IsAheadOf x := by
  obtain ⟨_, _, rfl⟩ := generate_spec hheader hg
  rintro _ ⟨⟩ m hlt hle
  obtain ⟨k, hk, hbelow⟩ := isBelow_of_generatorFloor rfl hx
  cases hk
  have hlt : n < m := hlt
  exact hbelow m (by omega) hle

theorem useGenerated_of_error {path : Option KeyPath} {f : Failure} (h : c.generate = (.error f, d)) :
    c.useGenerated path record = (.error f, d) := by
  unfold useGenerated
  rw [h]

theorem useGenerated_of_ok (path : Option KeyPath) (record : Value) (h : c.generate = (.ok n, d)) :
    (∃ f, c.useGenerated path record = (.error (.store f), d)) ∨
      ∃ v, c.useGenerated path record = (.ok (.int n, v), d) := by
  unfold useGenerated
  rw [h]
  dsimp only
  split
  · split
    · exact .inl ⟨_, rfl⟩
    · exact .inr ⟨_, rfl⟩
  · exact .inr ⟨_, rfl⟩

/-- Whatever comes of the search for a key, the generator is ahead of what it handed out, and of the
key. -/
theorem isAhead_resolveKey (h : c.IsAhead handed) (hkeying : c.header.map Header.keying = some keying)
    {r : Except Failure (Value × Value)} (hr : c.resolveKey name keying record key = (r, d)) :
    d.IsAhead ((if keying.callsFor record key then c.generate.1.toOption else none).toList ++ handed) ∧
      ∀ k v, r = .ok (k, v) → keying.autoIncrement = true → ∀ x, Key.ofValue k = .ok (.number x) →
        ∀ header ∈ d.header, header.IsAheadOf x := by
  cases hcalls : keying.callsFor record key with
  | false =>
      refine ⟨h.sameData (resolveKey_cases hr).1, ?_⟩
      rintro k v rfl hauto x hx
      rcases resolveKey_of_not_callsFor c name hcalls with ⟨f, hf⟩ | ⟨given, hgiven⟩
      · cases hr.symm.trans hf
      · unfold useKey at hgiven
        rw [hr] at hgiven
        split at hgiven
        · cases hgiven
        · next hraise =>
          cases hgiven
          exact isAheadOf_raiseGenerator hauto hraise hx
  | true =>
      rw [resolveKey_of_callsFor hcalls] at hr
      obtain ⟨header, hheader, rfl⟩ := Option.map_eq_some_iff.1 hkeying
      rw [if_pos rfl]
      cases hgenerate : c.generate with
      | mk generated c' =>
          cases generated with
          | error f =>
              obtain ⟨_, rfl, _⟩ := generate_of_error hheader hgenerate
              cases hr.symm.trans (useGenerated_of_error hgenerate)
              exact ⟨h, nofun⟩
          | ok n =>
              have hahead := isAhead_generate h hheader hgenerate
              rcases useGenerated_of_ok header.keying.keyPath record hgenerate with
                ⟨f, hf⟩ | ⟨v, hv⟩
              · cases hr.symm.trans hf
                exact ⟨hahead, nofun⟩
              · cases hr.symm.trans hv
                refine ⟨hahead, ?_⟩
                rintro k v ⟨⟩ _ x hx
                exact isAheadOf_generate hheader hgenerate hx

/-! ### Changes -/

/-- A record that is put under a key leaves the generator ahead, if it is ahead of the key. -/
theorem isAhead_carryOut {p : Plan} {k : Value} (h : c.IsAhead handed)
    (hkeying : c.header.map Header.keying = some keying) (hencode : k.encodeKey = .ok p.key)
    (hahead : keying.autoIncrement = true → ∀ x, Key.ofValue k = .ok (.number x) →
      ∀ header ∈ c.header, header.IsAheadOf x) : (c.carryOut p).IsAhead handed := by
  obtain ⟨header, hheader, rfl⟩ := Option.map_eq_some_iff.1 hkeying
  refine ⟨fun h' hh' hauto r hr x hx heq => ?_, h.handed, fun hnone => ?_⟩
  · rcases OrderedRows.mem_insert_of_mem hr with rfl | hr
    · cases hheader.symm.trans hh'
      obtain ⟨l, hl, hkey⟩ := Value.encodeKey_eq_ok_iff.1 hencode
      -- two numbers under one encoded key have one value
      obtain ⟨y, rfl, hsame⟩ := Key.eq_number_of_encode_eq (Key.isOrdered_of_ofValue hl) hx
        (hkey.trans heq)
      intro n hn hle
      have hbelow := hahead hauto y hl header hheader n hn hle
      rwa [Double.IsBelow, hsame] at hbelow
    · exact h.numbers h' hh' hauto r hr x hx heq
  · cases hheader.symm.trans hnone

theorem isAhead_write (h : c.IsAhead handed) (hkeying : c.header.map Header.keying = some keying)
    (name : String) (value key : Value) (overwrite : Bool) :
    (c.write name keying value key overwrite).2.IsAhead
      ((c.handedOut? keying value key).toList ++ handed) := by
  unfold write handedOut?
  cases hclone : value.clone with
  | error f => exact h
  | ok record =>
      dsimp only
      cases hresolve : c.resolveKey name keying record key with
      | mk r d =>
          obtain ⟨hd, hkey⟩ := isAhead_resolveKey h hkeying hresolve
          cases r with
          | error f => exact hd
          | ok kv =>
              obtain ⟨k, v⟩ := kv
              dsimp only
              cases hplan : d.plan name k v overwrite with
              | error f => exact hd
              | ok p =>
                  exact isAhead_carryOut hd ((resolveKey_cases hresolve).1.keying.trans hkeying)
                    (plan_spec hplan).1 (hkey k v rfl)

/-- No change lets a number among the keys, or a key that was handed out, get past the generator. -/
theorem isAhead_apply (h : c.IsAhead handed) {made : Keying → Prop} {change : Change}
    (hsuits : change.Suits made c) (name : String) :
    (change.apply name c).IsAhead (c.handedAfter handed change) := by
  cases change with
  | create keying =>
      refine ⟨fun _ _ _ r hr => ?_, fun _ _ _ hn => absurd hn List.not_mem_nil, nofun⟩
      rw [Change.apply, h.absent hsuits.2] at hr
      exact absurd hr List.not_mem_nil
  | drop => exact isAhead_empty
  | createIndex index spec =>
      refine h.mono (fun r hr => ?_) ?_ ?_
      · rwa [Change.apply, records_createIndex] at hr
      · rw [Change.apply, header_createIndex (Prod.mk.eta).symm]
      · rw [Change.apply, header_createIndex (Prod.mk.eta).symm]
        exact fun _ hc _ hd => le_of_eq (congrArg Header.lastKey (Option.mem_unique hc hd))
  | deleteIndex index => exact ⟨h.numbers, h.handed, h.absent⟩
  | write keying value key overwrite => exact isAhead_write h hsuits name value key overwrite
  | delete range =>
      refine ⟨fun h' hh' hauto r hr => h.numbers h' hh' hauto r (List.mem_of_mem_filter hr), h.handed,
        fun hnone => ?_⟩
      rw [Change.apply, delete, h.absent hnone]
      rfl
  | clear => exact ⟨fun _ _ _ _ hr => absurd hr List.not_mem_nil, h.handed, fun _ => rfl⟩

/-! ### Fresh keys -/

/-- A whole number that can be generated and is above all numbers among the keys and all keys that
were handed out. -/
structure IsFresh (c : Collection) (handed : List Nat) (n : Nat) : Prop where
  pos : 0 < n
  le : n ≤ maxGenerated
  numbers : ∀ x : Double, x.isNaN = false → (c.text? (Key.encode (.number x))).isSome = true →
    x.IsBelow n
  handed : ∀ m ∈ handed, m < n

theorem isFresh_generate (h : c.IsAhead handed) {header : Header} (hheader : c.header = some header)
    (hauto : header.keying.autoIncrement = true) (hg : c.generate = (.ok n, d)) :
    c.IsFresh handed n := by
  obtain ⟨hn, hle, _⟩ := generate_spec hheader hg
  refine ⟨hn ▸ Nat.succ_pos _, hle, fun x hx hsome => ?_, fun m hm => ?_⟩
  · obtain ⟨text, htext⟩ := Option.isSome_iff_exists.1 hsome
    exact h.numbers header hheader hauto _ (OrderedRows.mem_of_lookup htext) x hx rfl n
      (hn ▸ Nat.lt_succ_self _) hle
  · exact hn ▸ Nat.lt_succ_of_le (h.handed header hheader m hm)

/-- No record is under a fresh key. -/
theorem text?_eq_none_of_isFresh (h : c.IsFresh handed n) {encoded : Bytes}
    (hencode : (Value.int n).encodeKey = .ok encoded) : c.text? encoded = none := by
  obtain ⟨k, hk, rfl⟩ := Value.encodeKey_eq_ok_iff.1 hencode
  have hconvert := (Key.ofValue_eq_ok_iff.1 hk).2
  simp only [Key.convert] at hconvert
  split at hconvert
  · next x hx =>
    cases hconvert
    refine Option.not_isSome_iff_eq_none.1 fun hsome => ?_
    exact Double.not_isBelow_of_ofInt? hx h.le (h.numbers x (Double.isNaN_of_ofInt? hx) hsome)
  · cases hconvert

/-- A write that calls for a generated key gets a fresh one, which it neither overwrites a record
with nor is refused for as a duplicate; or the keys are exhausted. -/
theorem write_of_callsFor (h : c.IsAhead handed) (hkeying : c.header.map Header.keying = some keying)
    (hclone : value.clone = .ok record) (hcalls : keying.callsFor record key = true) (name : String)
    (overwrite : Bool) :
    (∃ n, c.handedOut? keying value key = some n ∧ c.IsFresh handed n ∧
      (∀ k collection, (c.write name keying value key overwrite).1 ≠
        .error (.store (.duplicateKey k collection))) ∧
      ∀ k, (c.write name keying value key overwrite).1 = .ok k → k = .int n ∧
        ∃ encoded, k.encodeKey = .ok encoded ∧ c.text? encoded = none) ∨
    c.handedOut? keying value key = none ∧ (∀ h ∈ c.header, maxGenerated ≤ h.lastKey) ∧
      (c.write name keying value key overwrite).1 = .error (.store .generatorExhausted) := by
  obtain ⟨header, hheader, rfl⟩ := Option.map_eq_some_iff.1 hkeying
  have hauto : header.keying.autoIncrement = true := by
    rw [Keying.callsFor, Bool.and_eq_true, Bool.and_eq_true] at hcalls
    exact hcalls.1.1
  unfold write handedOut?
  rw [hclone]
  dsimp only
  rw [if_pos hcalls, resolveKey_of_callsFor hcalls]
  cases hgenerate : c.generate with
  | mk generated d =>
      cases generated with
      | error f =>
          obtain ⟨rfl, rfl, hlt⟩ := generate_of_error hheader hgenerate
          rw [useGenerated_of_error hgenerate]
          refine .inr ⟨rfl, ?_, rfl⟩
          rintro h' hh'
          cases hheader.symm.trans hh'
          exact Nat.lt_succ_iff.1 hlt
      | ok n =>
          have hfresh := isFresh_generate h hheader hauto hgenerate
          have hrecords := (sameData_generate hgenerate).records
          refine .inl ⟨n, rfl, hfresh, ?_⟩
          rcases useGenerated_of_ok header.keying.keyPath record hgenerate with
            ⟨f, hf⟩ | ⟨v, hv⟩
          · have hne (k : Value) (collection : String) :
                (c.useGenerated header.keying.keyPath record).1 ≠
                  .error (.store (.duplicateKey k collection)) := useGenerated_ne_duplicate _ _ _
            rw [hf] at hne ⊢
            dsimp only
            exact ⟨fun k collection heq => hne k collection (by cases heq; rfl), by rintro _ ⟨⟩⟩
          · rw [hv]
            dsimp only
            have hnone {encoded : Bytes} (hencode : (Value.int n).encodeKey = .ok encoded) :
                d.text? encoded = none := by
              rw [text?, hrecords]
              exact text?_eq_none_of_isFresh hfresh hencode
            cases hplan : d.plan name (.int n) v overwrite with
            | error f =>
                refine ⟨?_, by rintro _ ⟨⟩⟩
                rintro k collection ⟨⟩
                obtain ⟨_, rfl, _, encoded, hencode, hsome⟩ := plan_duplicate_iff.1 hplan
                rw [hnone hencode] at hsome
                cases hsome
            | ok p =>
                refine ⟨by rintro _ _ ⟨⟩, ?_⟩
                rintro k ⟨⟩
                have hencode := (plan_spec hplan).1
                exact ⟨rfl, p.key, hencode, text?_eq_none_of_isFresh hfresh hencode⟩

end Collection

/-! ### Histories -/

/-- The keys that were handed out in a collection since it was last made, the latest first. -/
def History.handed (name : String) : History → List Nat
  | [] => []
  | (changed, change) :: earlier =>
    if changed = name then ((contents earlier).get name).handedAfter (handed name earlier) change
    else handed name earlier

/-- In contents that a history leads to, each generator is ahead of all that it handed out. -/
theorem History.isAhead_handed {h : History} {made : Keying → Prop} (hs : h.IsSuitable made)
    (name : String) : (h.contents.get name).IsAhead (h.handed name) := by
  induction h with
  | nil => exact Collection.isAhead_empty
  | cons latest earlier ih =>
      obtain ⟨changed, change⟩ := latest
      rw [handed]
      by_cases hname : changed = name
      · subst hname
        rw [if_pos rfl]
        change (((contents earlier).set changed _).get changed).IsAhead _
        rw [Contents.get_set_self]
        exact Collection.isAhead_apply (ih hs.2) hs.1 changed
      · rw [if_neg hname]
        change (((contents earlier).set changed _).get name).IsAhead _
        rw [Contents.get_set_of_ne (Ne.symm hname)]
        exact ih hs.2

end RecordStore
