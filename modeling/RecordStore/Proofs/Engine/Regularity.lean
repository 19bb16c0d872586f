import RecordStore.Proofs.Collection.Ascending
import RecordStore.Proofs.Engine.AllContents

/-!
What all collections have, however they came about: their records and entries are in order, and keys are
never generated for a compound key path, since no collection is made that would ask for it.
-/

namespace RecordStore

/-- Keys are generated for single key paths only, or where there is none. -/
def Keying.GeneratesSingly (keying : Keying) : Prop :=
  keying.autoIncrement = true → ∀ paths, keying.keyPath ≠ some (.compound paths)

namespace Collection

/-- The records and entries are in order, and keys are generated singly. -/
structure IsRegular (c : Collection) : Prop where
  ascending : c.IsAscending
  keying : ∀ h ∈ c.header, h.keying.GeneratesSingly

variable {c : Collection}

theorem isRegular_empty : empty.IsRegular := ⟨isAscending_empty, nofun⟩

/-- A change keeps a collection regular, if it makes none that is not. -/
theorem isRegular_apply (h : c.IsRegular) (name : String) {change : Change}
    (hcreate : ∀ keying, change = .create keying → keying.GeneratesSingly) :
    (change.apply name c).IsRegular := by
  refine ⟨isAscending_apply h.ascending name change, ?_⟩
  have hsame (hkeying : (change.apply name c).header.map Header.keying = c.header.map Header.keying) :
      ∀ header ∈ (change.apply name c).header, header.keying.GeneratesSingly := by
    intro header hheader
    rw [Option.mem_def.1 hheader] at hkeying
    obtain ⟨other, hother, heq⟩ := Option.map_eq_some_iff.1 hkeying.symm
    exact heq ▸ h.keying other hother
  cases change with
  | create keying =>
      rintro _ ⟨⟩
      exact hcreate keying rfl
  | drop => exact nofun
  | createIndex index spec =>
      exact hsame (congrArg _ (header_createIndex (Prod.mk.eta).symm))
  | write keying value key overwrite =>
      refine hsame ?_
      rw [Change.apply]
      rcases write_cases (Prod.mk.eta (p := c.write name keying value key overwrite)).symm with
        ⟨_, _, hdata⟩ | ⟨_, _, _, c', p, _, _, hdata, _, _, hd⟩
      · exact hdata.keying
      · rw [hd]
        exact hdata.keying
  | deleteIndex index => exact hsame rfl
  | delete range => exact hsame rfl
  | clear => exact hsame rfl

end Collection

/-- All collections are regular. -/
def Contents.IsRegular (s : Contents) : Prop := ∀ name, (s.get name).IsRegular

/-- Whatever a call creates has keys generated singly. -/
theorem EngineCall.generatesSingly_of_change? {c : EngineCall} {mode : Mode} {s : Contents}
    {name : String} {keying : Keying} (h : c.change? mode s = some (name, .create keying)) :
    keying.GeneratesSingly := by
  cases c with
  | createCollection tx made keyPath autoIncrement =>
      simp only [change?, Contents.creation?] at h
      split at h
      · next path _ =>
        split at h
        · cases h
        · next hallowed =>
          cases h
          rintro hauto paths rfl
          change autoIncrement.isTrue = true at hauto
          exact hallowed (by simp [hauto, KeyPath.isCompound])
      · cases h
  | deleteCollection tx made =>
      simp only [change?] at h
      split at h <;> cases h
  | createIndex r index keyPath unique multiEntry =>
      simp only [change?, StoreRef.indexCreation?] at h
      repeat' split at h
      all_goals cases h
  | deleteIndex r index =>
      simp only [change?, StoreRef.indexDeletion?] at h
      split at h
      · obtain ⟨_, _, h⟩ := Option.map_eq_some_iff.1 h
        cases h
      · cases h
  | delete r query =>
      simp only [change?, StoreRef.deletion?] at h
      repeat' split at h
      all_goals cases h
  | updateCursor cur value =>
      simp only [change?, CursorRef.writing?] at h
      repeat' split at h
      all_goals cases h
  | deleteAtCursor cur =>
      simp only [change?, CursorRef.deletion?, StoreRef.deletion?] at h
      repeat' split at h
      all_goals cases h
  | _ => cases h

/-- In every state that calls lead to, all collections are regular. -/
theorem Engine.isRegular_of_isReachable {e : Engine} (he : e.IsReachable) :
    e.AllContents Contents.IsRegular := by
  refine allContents_of_isReachable (fun _ => Collection.isRegular_empty) (fun s mode c hs => ?_) he
  cases hchange : c.change? mode s with
  | none => exact hs
  | some made =>
      obtain ⟨name, change⟩ := made
      intro other
      change ((s.set name _).get other).IsRegular
      by_cases hname : other = name
      · subst hname
        rw [Contents.get_set_self]
        refine Collection.isRegular_apply (hs other) other fun keying hkeying => ?_
        exact EngineCall.generatesSingly_of_change? (hkeying ▸ hchange)
      · rw [Contents.get_set_of_ne hname]
        exact hs other

end RecordStore
