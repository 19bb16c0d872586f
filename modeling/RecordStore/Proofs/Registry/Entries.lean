import Mathlib.Data.List.Find
import RecordStore.Proofs.Key.Equality
import RecordStore.Registry

/-!
Entries of registries. Versions that are numbers are the same when they have one place on the line of numbers,
so a key with such a version stands for a name and a place. What is taken out of a registry or entered into it
makes a difference for the keys that stand for the same alone.
-/

namespace RecordStore

namespace Value

/-- The place of a number on the line, on which a whole number has as many units as the double that is equal to
it. What is no number has none. -/
def Numeric.line? : Numeric → Option (WithBot (WithTop Int))
  | .whole n => some ((n * Double.unitsPerOne : Int) : WithTop Int)
  | .double x => if x.isNaN then none else some x.extended

def line? (v : Value) : Option (WithBot (WithTop Int)) := v.numeric?.bind Numeric.line?

theorem Numeric.equals_iff {m n : Numeric} {a : WithBot (WithTop Int)} (hm : m.line? = some a) :
    m.equals n = true ↔ n.line? = some a := by
  have hpos : (Double.unitsPerOne : Int) ≠ 0 := by exact_mod_cast Double.unitsPerOne_pos.ne'
  cases m with
  | whole i =>
      cases hm
      cases n with
      | whole j =>
          rw [line?, Option.some_inj, WithBot.coe_inj, WithTop.coe_inj, mul_left_inj' hpos]
          exact beq_iff_eq.trans eq_comm
      | double y =>
          rw [line?]
          cases hy : y.isNaN with
          | true => exact iff_of_false (fun h => absurd (Double.isNaN_of_equalsInt h) (by simp [hy])) nofun
          | false => exact (Double.equalsInt_iff hy).trans Option.some_inj.symm
  | double x =>
      rw [line?] at hm
      cases hx : x.isNaN with
      | true => simp [hx] at hm
      | false =>
          simp only [hx, Bool.false_eq_true, if_false, Option.some_inj] at hm
          subst hm
          cases n with
          | whole j => exact (Double.equalsInt_iff hx).trans (eq_comm.trans Option.some_inj.symm)
          | double y =>
              rw [line?]
              cases hy : y.isNaN with
              | true => exact iff_of_false (fun h => by simp [equals, Double.equals, hy] at h) nofun
              | false => exact (Double.equals_iff hx hy).trans (eq_comm.trans Option.some_inj.symm)

/-- A number equals what has its place on the line. -/
theorem equals_iff_line? {v w : Value} {a : WithBot (WithTop Int)} (hv : v.line? = some a) :
    v.equals w = true ↔ w.line? = some a := by
  obtain ⟨m, hm, hline⟩ := Option.bind_eq_some_iff.1 hv
  have hequals : v.equals w = numericEquals v w := by
    cases v with
    | bool _ | int _ | float _ => cases w <;> rfl
    | _ => cases hm
  rw [hequals, numericEquals, hm, line?]
  cases w.numeric? with
  | none => exact iff_of_false nofun nofun
  | some n => exact Numeric.equals_iff hline

end Value

namespace RegistryKey

/-- The version of a key is a number. -/
def IsNumbered (k : RegistryKey) : Prop := k.version.line? ≠ none

/-- What a key stands for: a name and a place on the line. -/
def standsFor (k : RegistryKey) : String × Option (WithBot (WithTop Int)) := (k.name, k.version.line?)

theorem same_iff {a b : RegistryKey} (ha : a.IsNumbered) : a.same b = true ↔ a.standsFor = b.standsFor := by
  obtain ⟨x, hx⟩ := Option.ne_none_iff_exists'.1 ha
  rw [same, Bool.and_eq_true, beq_iff_eq, Value.equals_iff_line? hx, standsFor, standsFor, hx, Prod.mk.injEq]
  exact and_congr_right fun _ => eq_comm

end RegistryKey

namespace Registry

variable {r : Registry} {isClosed : Nat → Bool} {k : RegistryKey} {id : Nat}

/-- What a registry finds is open, and is there under the same name. -/
theorem exists_entry_of_get (h : (r.get isClosed k).1 = some id) :
    isClosed id = false ∧ ∃ entry ∈ r.entries, entry.1.name = k.name ∧ entry.2 = id := by
  unfold get at h
  cases hfind : r.find? k with
  | none =>
      rw [hfind] at h
      cases h
  | some owner =>
      rw [hfind] at h
      cases hclosed : isClosed owner with
      | true =>
          simp only [hclosed, if_true] at h
          cases h
      | false =>
          simp only [hclosed] at h
          cases h
          obtain ⟨entry, hentry, howner⟩ := Option.map_eq_some_iff.1 hfind
          refine ⟨hclosed, entry, List.mem_of_find?_eq_some hentry, ?_, howner⟩
          have hsame := List.find?_some hentry
          rw [RegistryKey.same, Bool.and_eq_true, beq_iff_eq] at hsame
          exact hsame.1

theorem entries_get_subset (r : Registry) (isClosed : Nat → Bool) (k : RegistryKey) :
    (r.get isClosed k).2.entries ⊆ r.entries := by
  unfold get
  cases r.find? k with
  | none => exact List.Subset.refl _
  | some owner =>
      dsimp only
      split
      · exact List.filter_subset_self _
      · exact List.Subset.refl _

/-- Only of those that it has must a registry know whether they are closed. -/
theorem get_congr {isClosed' : Nat → Bool} (h : ∀ entry ∈ r.entries, isClosed' entry.2 = isClosed entry.2) :
    r.get isClosed' k = r.get isClosed k := by
  unfold get
  cases hfind : r.find? k with
  | none => rfl
  | some owner =>
      obtain ⟨entry, hentry, rfl⟩ := Option.map_eq_some_iff.1 hfind
      dsimp only
      rw [h entry (List.mem_of_find?_eq_some hentry)]

/-- Registering yields the owner that there is, or else enters the connection. -/
theorem insert_cases (r : Registry) (isClosed : Nat → Bool) (k : RegistryKey) (id : Nat) :
    (∃ owner, (r.get isClosed k).1 = some owner ∧ r.insert isClosed k id = (owner, (r.get isClosed k).2)) ∨
      (r.get isClosed k).1 = none ∧
        r.insert isClosed k id = (id, ⟨(r.get isClosed k).2.entries ++ [(k, id)]⟩) := by
  unfold insert
  cases hget : r.get isClosed k with
  | mk found rest =>
      cases found with
      | none => exact .inr ⟨rfl, rfl⟩
      | some owner => exact .inl ⟨owner, rfl, rfl⟩

theorem entries_evict_subset (r : Registry) (k : RegistryKey) (connection : Option Nat) :
    (r.evict k connection).2.entries ⊆ r.entries := by
  unfold evict
  cases r.find? k with
  | none => exact List.Subset.refl _
  | some owner =>
      dsimp only
      split
      · exact List.Subset.refl _
      · exact List.filter_subset_self _

/-- Looking up finds nothing, or something closed, which is taken out, or something open. -/
theorem get_cases (r : Registry) (isClosed : Nat → Bool) (k : RegistryKey) :
    (r.find? k = none ∧ r.get isClosed k = (none, r)) ∨
      (∃ owner, r.find? k = some owner ∧ isClosed owner = true ∧ r.get isClosed k = (none, r.remove k)) ∨
      ∃ owner, r.find? k = some owner ∧ isClosed owner = false ∧ r.get isClosed k = (some owner, r) := by
  cases hfind : r.find? k with
  | none => exact .inl ⟨rfl, by rw [get, hfind]⟩
  | some owner =>
      cases hclosed : isClosed owner with
      | true => exact .inr (.inl ⟨owner, rfl, hclosed, by simp [get, hfind, hclosed]⟩)
      | false => exact .inr (.inr ⟨owner, rfl, hclosed, by simp [get, hfind, hclosed]⟩)

/-- Taking out changes nothing, unless what is there is what is meant. -/
theorem evict_cases (r : Registry) (k : RegistryKey) (connection : Option Nat) :
    ((∀ owner, r.find? k = some owner → ∃ other, connection = some other ∧ other ≠ owner) ∧
      r.evict k connection = (false, r)) ∨
    ∃ owner, r.find? k = some owner ∧ (∀ other, connection = some other → other = owner) ∧
      r.evict k connection = (true, r.remove k) := by
  cases hfind : r.find? k with
  | none => exact .inl ⟨nofun, by rw [evict, hfind]⟩
  | some owner =>
      cases connection with
      | none => exact .inr ⟨owner, rfl, nofun, by simp [evict, hfind]⟩
      | some other =>
          by_cases heq : other = owner
          · exact .inr ⟨owner, rfl, fun _ h => Option.some.inj h ▸ heq, by simp [evict, hfind, heq]⟩
          · exact .inl ⟨fun _ h => ⟨other, rfl, Option.some.inj h ▸ heq⟩, by simp [evict, hfind, heq]⟩

/-! ### Keys that stand for the same -/

/-- The versions of all that is entered are numbers. -/
def IsNumbered (r : Registry) : Prop := ∀ entry ∈ r.entries, entry.1.IsNumbered

section StandsFor

variable {l : RegistryKey}

theorem IsNumbered.remove (hr : r.IsNumbered) (k : RegistryKey) : (r.remove k).IsNumbered :=
  fun entry hentry => hr entry (List.mem_of_mem_filter hentry)

theorem find?_congr (hr : r.IsNumbered) (h : k.standsFor = l.standsFor) : r.find? k = r.find? l := by
  rw [find?, find?]
  refine congrArg _ (List.find?_congr fun entry hentry => ?_)
  rw [Bool.eq_iff_iff, RegistryKey.same_iff (hr entry hentry), RegistryKey.same_iff (hr entry hentry), h]

theorem find?_remove_of_eq (hr : r.IsNumbered) (h : k.standsFor = l.standsFor) : (r.remove k).find? l = none := by
  rw [← find?_congr (hr.remove k) h, find?, remove, List.find?_filter]
  simp

theorem find?_remove_of_ne (hr : r.IsNumbered) (h : k.standsFor ≠ l.standsFor) :
    (r.remove k).find? l = r.find? l := by
  rw [find?, remove, List.find?_filter]
  refine congrArg _ (List.find?_congr fun entry hentry => ?_)
  cases hsame : entry.1.same l with
  | false => simp
  | true =>
      -- an entry for what `l` stands for is none for what `k` stands for
      have hother : entry.1.same k = false := by
        rw [← Bool.not_eq_true, RegistryKey.same_iff (hr entry hentry)]
        rw [RegistryKey.same_iff (hr entry hentry)] at hsame
        exact fun heq => h (heq.symm.trans hsame)
      simp [hother]

theorem find?_concat_of_eq (hk : k.IsNumbered) (hr : r.IsNumbered) (hnone : r.find? k = none)
    (h : k.standsFor = l.standsFor) : find? ⟨r.entries ++ [(k, id)]⟩ l = some id := by
  rw [find?_congr hr h, find?, Option.map_eq_none_iff] at hnone
  rw [find?, List.find?_append, hnone]
  simp [(RegistryKey.same_iff hk).2 h]

theorem find?_concat_of_ne (hk : k.IsNumbered) (h : k.standsFor ≠ l.standsFor) :
    find? ⟨r.entries ++ [(k, id)]⟩ l = r.find? l := by
  have hsame : k.same l = false := by
    rw [← Bool.not_eq_true, RegistryKey.same_iff hk]
    exact h
  rw [find?, find?, List.find?_append]
  simp [hsame]

/-- What is found has a version that is a number, and so has the key that it is found under. -/
theorem isNumbered_of_find? (hr : r.IsNumbered) (h : r.find? k = some id) : k.IsNumbered := by
  obtain ⟨entry, hentry, _⟩ := Option.map_eq_some_iff.1 h
  have hnumber := hr entry (List.mem_of_find?_eq_some hentry)
  have hsame := List.find?_some hentry
  rw [RegistryKey.same_iff hnumber] at hsame
  rw [RegistryKey.IsNumbered, ← (Prod.mk.inj hsame).2]
  exact hnumber

theorem find?_of_get_eq_none (hr : r.IsNumbered) (h : (r.get isClosed k).1 = none) :
    (r.get isClosed k).2.find? k = none := by
  rcases r.get_cases isClosed k with ⟨hfind, hget⟩ | ⟨_, _, _, hget⟩ | ⟨_, _, _, hget⟩
  · rw [hget]
    exact hfind
  · rw [hget]
    exact find?_remove_of_eq hr rfl
  · rw [hget] at h
    cases h

end StandsFor

end Registry
end RecordStore
