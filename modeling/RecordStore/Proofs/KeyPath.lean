import RecordStore.KeyPath.Resolution
import RecordStore.Proofs.Document.Stored

/-!
Single key paths. A path without dots leads to a field. Writing a key into a stored value along a path
without tags yields a stored value: no mapping on the way takes the form of a tagged object.
-/

namespace RecordStore

open Document (IsTag)

/-- No field on the way is the name of a tag. -/
def KeyPath.IsTagFree : KeyPath → Prop
  | single path => ∀ s ∈ segments path, ¬IsTag s
  | compound paths => ∀ path ∈ paths, ∀ s ∈ segments path, ¬IsTag s

namespace Value

theorem setMember_eq_singleton {name other : String} {value v : Value}
    {members : List (Value × Value)} (hm : MembersStored members)
    (h : setMember name value members = [(.text other, v)]) :
    (members = [] ∧ other = name) ∨ ∃ w, members = [(.text other, w)] := by
  cases members with
  | nil =>
      cases h
      exact .inl ⟨rfl, rfl⟩
  | cons m rest =>
      obtain ⟨k, w⟩ := m
      cases k with
      | text s =>
          rw [setMember] at h
          split at h
          · cases h
            exact .inr ⟨w, rfl⟩
          · cases rest with
            | nil => cases h
            | cons m rest =>
                obtain ⟨k, w⟩ := m
                cases k with
                | text t =>
                    rw [setMember] at h
                    split at h <;> cases h
                | _ => exact hm.2.2.elim
      | _ => exact hm.elim

theorem isStored_setMember {name : String} {value : Value} {members : List (Value × Value)}
    (hn : ¬IsTag name) (hv : value.IsStored) (hm : (dict members).IsStored) :
    (dict (setMember name value members)).IsStored := by
  refine ⟨membersStored_setMember hv hm.1, ?_⟩
  intro other v h
  rcases setMember_eq_singleton hm.1 h with ⟨_, rfl⟩ | ⟨w, hw⟩
  · exact hn
  · exact hm.2 other w hw

theorem isStored_of_member? {name : String} {v : Value} {members : List (Value × Value)}
    (hm : MembersStored members) (h : member? name members = some v) : v.IsStored := by
  induction members with
  | nil => cases h
  | cons m rest ih =>
      obtain ⟨k, w⟩ := m
      cases k with
      | text s =>
          rw [member?] at h
          split at h
          · cases h
            exact hm.1
          · exact ih hm.2.2 h
      | _ => exact hm.elim

theorem isStored_emptyDict : (dict []).IsStored := ⟨trivial, nofun⟩

end Value

namespace KeyPath

/-! ### Paths without dots -/

section Fields

variable {field : String}

theorem splitOnChar_of_not_mem {mark : Char} {cs : List Char} (h : mark ∉ cs) :
    splitOnChar mark cs = [cs] := by
  induction cs with
  | nil => rfl
  | cons c rest ih =>
      rw [List.mem_cons, not_or] at h
      rw [splitOnChar, if_neg (Ne.symm h.1), ih h.2]

theorem segments_of_not_mem (hdots : '.' ∉ field.toList) : segments field = [field] := by
  rw [segments, splitOnChar_of_not_mem hdots, List.map_singleton, String.ofList_toList]

/-- A path without dots leads to a field. -/
theorem findSingle_of_not_mem (hne : field ≠ "") (hdots : '.' ∉ field.toList) (v : Value) :
    findSingle field v = v.field? field := by
  rw [findSingle, if_neg hne, segments_of_not_mem hdots]
  cases hfield : v.field? field <;> simp [follow, hfield]

end Fields

/-! ### Where paths lead -/

/-- What a mark divides starts with a part that has no mark. -/
theorem exists_splitOnChar_eq_cons (mark : Char) (cs : List Char) :
    ∃ first rest, splitOnChar mark cs = first :: rest ∧ mark ∉ first := by
  induction cs with
  | nil => exact ⟨[], [], rfl, List.not_mem_nil⟩
  | cons c rest ih =>
      obtain ⟨first, others, hsplit, hmark⟩ := ih
      rw [splitOnChar]
      split
      · exact ⟨[], _, rfl, List.not_mem_nil⟩
      · next hc =>
        rw [hsplit]
        exact ⟨c :: first, others, rfl, List.not_mem_cons_of_ne_of_not_mem (Ne.symm hc) hmark⟩

/-- A path starts with a field without dots. -/
theorem exists_segments_eq_cons (path : String) :
    ∃ first rest, segments path = first :: rest ∧ '.' ∉ first.toList := by
  obtain ⟨first, rest, hsplit, hmark⟩ := exists_splitOnChar_eq_cons '.' path.toList
  refine ⟨String.ofList first, rest.map String.ofList, by rw [segments, hsplit, List.map_cons], ?_⟩
  rwa [String.toList_ofList]

/-- A path that has fields leads from mappings only. -/
theorem exists_dict_of_findSingle {path : String} {v found : Value} (hne : path ≠ "")
    (h : findSingle path v = some found) : ∃ members, v = .dict members := by
  obtain ⟨first, rest, hsegments, _⟩ := exists_segments_eq_cons path
  rw [findSingle, if_neg hne, hsegments] at h
  cases v with
  | dict members => exact ⟨members, rfl⟩
  | _ => cases h

theorem exists_dict_of_inject {path : String} {key v w : Value} (h : inject path key v = .ok w) :
    ∃ members, v = .dict members := by
  obtain ⟨first, rest, hsegments, _⟩ := exists_segments_eq_cons path
  rw [inject, hsegments] at h
  cases v with
  | dict members => exact ⟨members, rfl⟩
  | _ => simp [place] at h

/-- A path with dots does not lead to the field of its own name, whatever is in that. -/
theorem findSingle_congr_of_mem {path : String} (hdots : '.' ∈ path.toList)
    {members others : List (Value × Value)}
    (h : ∀ name ≠ path, Value.member? name members = Value.member? name others) :
    findSingle path (.dict members) = findSingle path (.dict others) := by
  have hne : path ≠ "" := by
    rintro rfl
    cases hdots
  obtain ⟨first, rest, hsegments, hfirst⟩ := exists_segments_eq_cons path
  have hother : first ≠ path := fun heq => hfirst (heq ▸ hdots)
  rw [findSingle, if_neg hne, findSingle, if_neg hne, hsegments, follow, follow, Value.field?, Value.field?,
    h first hother]

theorem isStored_of_follow {segments : List String} {v found : Value} (hv : v.IsStored)
    (h : follow segments v = some found) : found.IsStored := by
  induction segments generalizing v with
  | nil =>
      cases h
      exact hv
  | cons s rest ih =>
      obtain ⟨w, hw, hrest⟩ := Option.bind_eq_some_iff.1 h
      cases v with
      | dict members => exact ih (Value.isStored_of_member? hv.1 hw) hrest
      | _ => cases hw

/-! ### Records with a key written into them -/

/-- A key is found where it was placed. -/
theorem follow_place {key v w : Value} {segments : List String}
    (h : place key segments v = some w) : follow segments w = some key := by
  fun_induction place key segments v generalizing w with
  | case1 => cases h
  | case2 s members =>
      cases h
      rw [follow, Value.field?, Value.member?_setMember, if_pos rfl]
      rfl
  | case3 s rest members hne ih =>
      obtain ⟨inner, hinner, h⟩ := Option.bind_eq_some_iff.1 h
      cases h
      rw [follow, Value.field?, Value.member?_setMember, if_pos rfl]
      exact ih hinner
  | case4 => cases h

/-- Writing a stored value at the end of a way without tags keeps a record stored. -/
theorem isStored_place {key v w : Value} {segments : List String}
    (hs : ∀ s ∈ segments, ¬IsTag s) (hk : key.IsStored) (hv : v.IsStored)
    (h : place key segments v = some w) : w.IsStored := by
  fun_induction place key segments v generalizing w with
  | case1 => cases h
  | case2 s members =>
      cases h
      exact Value.isStored_setMember (hs s List.mem_cons_self) hk hv
  | case3 s rest members hne ih =>
      obtain ⟨inner, hinner, h⟩ := Option.bind_eq_some_iff.1 h
      cases h
      have hmember : ((Value.member? s members).getD (.dict [])).IsStored := by
        cases hm : Value.member? s members with
        | none => exact Value.isStored_emptyDict
        | some v => exact Value.isStored_of_member? hv.1 hm
      exact Value.isStored_setMember (hs s List.mem_cons_self)
        (ih (fun t ht => hs t (List.mem_cons_of_mem _ ht)) hmember hinner) hv
  | case4 => cases h

theorem isStored_inject {path : String} {key v w : Value} (hp : (single path).IsTagFree)
    (hk : key.IsStored) (hv : v.IsStored) (h : inject path key v = .ok w) : w.IsStored := by
  rw [inject] at h
  split at h
  · next hplace =>
    cases h
    exact isStored_place hp hk hv hplace
  · cases h

end KeyPath
end RecordStore
