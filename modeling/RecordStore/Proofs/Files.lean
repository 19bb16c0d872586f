import RecordStore.Config
import RecordStore.Proofs.Text.PercentEncoded

/-!
Where stores are kept. Each name of a store is one component of a path, which is no step to another directory,
and no two names are the same one. So the file of a store is in the directory that stores are kept in, however
that is reached, and no other store has it.
-/

namespace RecordStore
namespace Config

/-! ### Following paths -/

/-- Enters a component of a path from a directory, which is given by the components that lead to it from the
root. -/
def enter (here : List String) (component : String) : List String :=
  if component = "" ∨ component = "." then here
  else if component = ".." then here.dropLast
  else here ++ [component]

def components (path : String) : List String := (path.toList.splitOn '/').map String.ofList

/-- Where a path leads from a directory; a path that starts with a slash leads from the root. -/
def walk (here : List String) (path : String) : List String :=
  (components path).foldl enter (if path.toList.head? = some '/' then [] else here)

/-- A component of a path that is a file of a store, if it is anything. -/
structure IsFileName (component : String) : Prop where
  slashless : '/' ∉ component.toList
  ne_here : component ≠ "."
  ne_above : component ≠ ".."
  ending : component.endsWith ".kvdb" = true

section Walk

variable {directory component name : String}

theorem exists_eq_append_of_endsWith {s ending : String} (h : s.endsWith ending = true) :
    ∃ cs, s.toList = cs ++ ending.toList := by
  rw [← String.endsWith_toSlice, String.Slice.endsWith_string_iff, String.copy_toSlice] at h
  obtain ⟨cs, hcs⟩ := h
  exact ⟨cs, hcs.symm⟩

theorem endsWith_append (s ending : String) : (s ++ ending).endsWith ending = true := by
  rw [← String.endsWith_toSlice, String.Slice.endsWith_string_iff, String.copy_toSlice,
    String.toList_append]
  exact List.suffix_append _ _

theorem IsFileName.toList_ne_nil (h : IsFileName component) : component.toList ≠ [] := by
  obtain ⟨cs, hcs⟩ := exists_eq_append_of_endsWith h.ending
  rw [hcs]
  exact List.append_ne_nil_of_right_ne_nil _ (by decide)

theorem enter_of_isFileName (h : IsFileName component) (here : List String) :
    enter here component = here ++ [component] := by
  have hne : component ≠ "" := fun heq => h.toList_ne_nil (by rw [heq]; rfl)
  simp [enter, hne, h.ne_here, h.ne_above]

theorem walk_of_isFileName (h : IsFileName component) (here : List String) :
    walk here component = here ++ [component] := by
  have hhead : component.toList.head? ≠ some '/' := fun heq => h.slashless (List.mem_of_head? heq)
  rw [walk, components, List.splitOn_eq_singleton h.slashless, if_neg hhead]
  simp [enter_of_isFileName h]

/-- A last component leads on from where what is before its slash leads. -/
theorem foldl_components {before : List Char} {path : String} (h : IsFileName component)
    (hpath : path.toList = before ++ '/' :: component.toList) (here : List String) :
    (components path).foldl enter here =
      ((before.splitOn '/').map String.ofList).foldl enter here ++ [component] := by
  rw [components, hpath, List.splitOn_append_cons_self, List.splitOn_eq_singleton h.slashless]
  simp [enter_of_isFileName h]

/-- What is joined to a directory is in that directory. -/
theorem walk_join (h : IsFileName component) (here : List String) (directory : String) :
    walk here (join directory component) = walk here directory ++ [component] := by
  by_cases hnone : directory = ""
  · have hjoin : join "" component = component := by simp [join]
    rw [hnone, hjoin, walk_of_isFileName h]
    rfl
  · by_cases hslash : directory.endsWith "/" = true
    · obtain ⟨before, hbefore⟩ := exists_eq_append_of_endsWith hslash
      have hpath : (directory ++ component).toList = before ++ '/' :: component.toList := by
        rw [String.toList_append, hbefore, List.append_assoc]
        rfl
      have hdirectory : components directory = (before.splitOn '/').map String.ofList ++ [""] := by
        rw [components, hbefore]
        exact (congrArg _ (List.splitOn_append_cons_self before [])).trans (by simp)
      have hhead : (directory ++ component).toList.head? = directory.toList.head? := by
        rw [hpath, hbefore]
        cases before <;> rfl
      rw [join, hslash, Bool.or_true, if_pos rfl, walk, walk, hhead, foldl_components h hpath, hdirectory]
      simp [enter]
    · have hpath : (directory ++ "/" ++ component).toList = directory.toList ++ '/' :: component.toList := by
        simp
      have hhead : (directory ++ "/" ++ component).toList.head? = directory.toList.head? := by
        rw [hpath]
        cases hchars : directory.toList with
        | nil => exact absurd (String.toList_eq_nil_iff.1 hchars) hnone
        | cons c cs => rfl
      rw [join, if_neg (by simp [hnone, hslash]), walk, walk, hhead, foldl_components h hpath]
      rfl

end Walk

/-! ### Files of stores -/

section FileName

variable {m n : String}

theorem fileName_injective (h : fileName m = fileName n) : m = n := by
  have hchars := congrArg String.toList h
  rw [fileName, fileName, String.toList_append, String.toList_append, List.append_left_inj,
    String.toList_ofList, String.toList_ofList] at hchars
  exact PercentEncoded.encode_injective hchars

theorem isFileName_fileName (name : String) : IsFileName (fileName name) := by
  have hending : (fileName name).endsWith ".kvdb" = true := endsWith_append _ _
  have hlength {s : String} (hs : s.toList.length < 5) : fileName name ≠ s := by
    rintro rfl
    obtain ⟨cs, hcs⟩ := exists_eq_append_of_endsWith hending
    rw [hcs, List.length_append] at hs
    exact absurd hs (Nat.not_lt_of_le (Nat.le_add_left 5 _))
  constructor
  · rw [fileName, String.toList_append, String.toList_ofList]
    intro hmem
    rcases List.mem_append.1 hmem with hmem | hmem
    · exact PercentEncoded.slash_not_mem_encode name hmem
    · exact absurd hmem (by decide)
  · exact hlength (by decide)
  · exact hlength (by decide)
  · exact hending

example : fileName "../a%2F" = "..%2Fa%252F.kvdb" := by decide

/-- A store is kept under a component of its own in the directory for stores. -/
structure KeepsAs (c : Config) (name component : String) : Prop where
  isFileName : IsFileName component
  path : c.pathFor (.text name) = .ok (join c.directory component)
  inside : ∀ here, walk here (join c.directory component) = walk here c.directory ++ [component]

theorem keepsAs_fileName (c : Config) (hn : n ≠ "") : c.KeepsAs n (fileName n) where
  isFileName := isFileName_fileName n
  path := by
    rw [pathFor, if_neg hn]
    rfl
  inside here := walk_join (isFileName_fileName n) here c.directory

/-- Every store has a file of its own in the directory for stores: two stores have one file, or files that are
the same wherever they are looked for from, only if they have one name. -/
theorem pathFor_is_one_to_one (c : Config) (hm : m ≠ "") (hn : n ≠ "") : ∃ a b,
    c.KeepsAs m a ∧ c.KeepsAs n b ∧ (c.pathFor (.text m) = c.pathFor (.text n) → m = n) ∧
      ∀ here, walk here (join c.directory a) = walk here (join c.directory b) → m = n := by
  have hkeptm := c.keepsAs_fileName hm
  have hkeptn := c.keepsAs_fileName hn
  have hplaces (here : List String)
      (h : walk here (join c.directory (fileName m)) = walk here (join c.directory (fileName n))) :
      m = n := by
    rw [hkeptm.inside, hkeptn.inside, List.append_right_inj] at h
    exact fileName_injective (List.singleton_inj.1 h)
  refine ⟨fileName m, fileName n, hkeptm, hkeptn, fun h => ?_, hplaces⟩
  rw [hkeptm.path, hkeptn.path] at h
  exact hplaces [] (congrArg (walk []) (Except.ok.inj h))

/-- A name that goes up is no step out of the directory, and one that looks encoded already is another one. -/
theorem pathFor_is_one_to_one_climbing : "../a" ≠ "" ∧ "..%2Fa" ≠ "" ∧ ∃ a b,
    (Config.mk "/data/" 5000 .wal .normal).KeepsAs "../a" a ∧
      (Config.mk "/data/" 5000 .wal .normal).KeepsAs "..%2Fa" b ∧
      ∀ here, walk here (join "/data/" a) ≠ walk here (join "/data/" b) := by
  have hup : "../a" ≠ "" := by decide
  have hencoded : "..%2Fa" ≠ "" := by decide
  obtain ⟨a, b, ha, hb, _, hplaces⟩ :=
    pathFor_is_one_to_one (Config.mk "/data/" 5000 .wal .normal) hup hencoded
  refine ⟨hup, hencoded, a, b, ha, hb, fun here h => ?_⟩
  exact absurd (hplaces here h) (by decide)

end FileName

end Config
end RecordStore
