import RecordStore.Proofs.Document.Members
import RecordStore.Proofs.Effect

/-!
Writing a key into a value. The fields of the path are gone through one after the other; an empty mapping is
put where a field is missing, and the last field gets the key. Once a field was missing there are only new
mappings on the way, so whatever is in the way is met before anything is changed. Looking up at the path then
finds the key, and looking up at a path that parts from it finds what it found before.
-/

namespace RecordStore

namespace Value

def IsMapping : Value → Prop
  | dict _ => True
  | _ => False

theorem exists_dict_of_isMapping {v : Value} (h : v.IsMapping) : ∃ members, v = dict members := by
  cases v with
  | dict members => exact ⟨members, rfl⟩
  | _ => exact h.elim

end Value

namespace KeyPath

/-! ### Paths that part -/

/-- A path goes on, after a dot, where another one ends. -/
def IsExtendedBy (path other : String) : Prop := ∃ rest, other = path ++ "." ++ rest

/-- Two paths are not the same, and neither goes on where the other one ends. -/
structure IsApartFrom (path other : String) : Prop where
  ne : other ≠ path
  notBefore : ¬IsExtendedBy other path
  notBeyond : ¬IsExtendedBy path other

section Segments

variable {path other : String}

theorem splitOnChar_eq_splitOn (mark : Char) (cs : List Char) : splitOnChar mark cs = cs.splitOn mark := by
  induction cs with
  | nil => rfl
  | cons c rest ih =>
      rw [splitOnChar, List.splitOn_cons_eq_if_modifyHead, ih]
      by_cases hc : c = mark
      · simp [hc]
      · cases hsplit : rest.splitOn mark with
        | nil => exact absurd hsplit (List.splitOn_ne_nil mark rest)
        | cons part parts => simp [hc]

theorem segments_ne_nil (path : String) : segments path ≠ [] := by
  simp [segments, splitOnChar_eq_splitOn]

/-- The fields of a path, with dots between them, are the path. -/
theorem intercalate_segments (path : String) : ".".intercalate (segments path) = path := by
  apply String.toList_injective
  simp [segments, splitOnChar_eq_splitOn, Function.comp_def, List.intercalate_splitOn]

theorem eq_or_isExtendedBy_of_prefix (h : segments path <+: segments other) :
    other = path ∨ IsExtendedBy path other := by
  obtain ⟨rest, hrest⟩ := h
  rw [← intercalate_segments other, ← hrest]
  by_cases hnil : rest = []
  · left
    rw [hnil, List.append_nil, intercalate_segments]
  · right
    refine ⟨".".intercalate rest, ?_⟩
    rw [String.intercalate_append_of_ne_nil (segments_ne_nil path) hnil, intercalate_segments]

end Segments

/-! ### What a key leaves behind -/

section Place

variable {key v w : Value} {way others : List String}

theorem place_cons {s : String} {members : List (Value × Value)} (hne : way ≠ []) :
    place key (s :: way) (.dict members) = (place key way ((Value.member? s members).getD (.dict []))).bind
      fun inner => some (.dict (Value.setMember s inner members)) := by
  cases way with
  | nil => exact absurd rfl hne
  | cons t way => rfl

theorem follow_append (way others : List String) (v : Value) :
    follow (way ++ others) v = (follow way v).bind (follow others) := by
  induction way generalizing v with
  | nil => rfl
  | cons s rest ih =>
      rw [List.cons_append, follow, follow]
      cases v.field? s with
      | none => rfl
      | some w => exact ih w

/-- What is found along a way that parts from the way to a key is found there as before. -/
theorem follow_place_of_apart (h : place key way v = some w) (hbefore : ¬others <+: way)
    (hbeyond : ¬way <+: others) : follow others w = follow others v := by
  fun_induction place key way v generalizing w others with
  | case1 => cases h
  | case2 s members =>
      cases h
      cases others with
      | nil => exact absurd List.nil_prefix hbefore
      | cons t others =>
          have hne : s ≠ t := by
            rintro rfl
            exact hbeyond (List.cons_prefix_cons.2 ⟨rfl, List.nil_prefix⟩)
          rw [follow, follow, Value.field?, Value.field?, Value.member?_setMember, if_neg hne]
  | case3 s rest members hne ih =>
      obtain ⟨inner, hinner, h⟩ := Option.bind_eq_some_iff.1 h
      cases h
      cases others with
      | nil => exact absurd List.nil_prefix hbefore
      | cons t others =>
          rw [follow, follow, Value.field?, Value.field?, Value.member?_setMember]
          by_cases hs : s = t
          · subst hs
            have hothers : follow others inner =
                follow others ((Value.member? s members).getD (.dict [])) := by
              apply ih hinner
              · exact fun hprefix => hbefore (List.cons_prefix_cons.2 ⟨rfl, hprefix⟩)
              · exact fun hprefix => hbeyond (List.cons_prefix_cons.2 ⟨rfl, hprefix⟩)
            rw [if_pos rfl]
            cases hmember : Value.member? s members with
            | some u => simpa [hmember] using hothers
            | none =>
                -- the field was missing, and a new mapping has nothing on the other way
                cases others with
                | nil => exact absurd (List.cons_prefix_cons.2 ⟨rfl, List.nil_prefix⟩) hbefore
                | cons t others => simpa [hmember, follow, Value.field?, Value.member?] using hothers
          · rw [if_neg hs]
  | case4 => cases h

/-- All that is before the end of a way is mappings, or is missing. -/
def LeadsThroughMappings (way : List String) (v : Value) : Prop :=
  ∀ before, before <+: way → before ≠ way → ∀ found, follow before v = some found → found.IsMapping

theorem leadsThroughMappings_singleton_iff {s : String} :
    LeadsThroughMappings [s] v ↔ v.IsMapping := by
  constructor
  · intro h
    exact h [] List.nil_prefix nofun v rfl
  · intro h before hprefix hne found hfound
    rcases List.prefix_cons_iff.1 hprefix with rfl | ⟨rest, rfl, hrest⟩
    · cases hfound
      exact h
    · rw [List.prefix_nil] at hrest
      exact absurd (congrArg (s :: ·) hrest) hne

theorem leadsThroughMappings_emptyDict (way : List String) : LeadsThroughMappings way (.dict []) := by
  intro before _ _ found hfound
  cases before with
  | nil =>
      cases hfound
      trivial
  | cons s rest => cases hfound

theorem leadsThroughMappings_cons_iff {s : String} {members : List (Value × Value)} :
    LeadsThroughMappings (s :: way) (.dict members) ↔
      LeadsThroughMappings way ((Value.member? s members).getD (.dict [])) := by
  constructor
  · intro h before hprefix hne found hfound
    cases hmember : Value.member? s members with
    | none =>
        rw [hmember] at hfound
        exact leadsThroughMappings_emptyDict way before hprefix hne found hfound
    | some u =>
        rw [hmember] at hfound
        apply h (s :: before) (List.cons_prefix_cons.2 ⟨rfl, hprefix⟩)
        · exact fun heq => hne (List.cons.inj heq).2
        · rw [follow, Value.field?, hmember]
          exact hfound
  · intro h before hprefix hne found hfound
    rcases List.prefix_cons_iff.1 hprefix with rfl | ⟨rest, rfl, hrest⟩
    · cases hfound
      trivial
    · obtain ⟨u, hmember, hfound⟩ := Option.bind_eq_some_iff.1 hfound
      rw [Value.field?] at hmember
      rw [hmember] at h
      exact h rest hrest (fun heq => hne (congrArg (s :: ·) heq)) found hfound

/-- A key can be put at the end of a way exactly when nothing else than mappings is on it. -/
theorem exists_place_iff (key : Value) (hne : way ≠ []) :
    (∃ w, place key way v = some w) ↔ LeadsThroughMappings way v := by
  fun_induction place key way v with
  | case1 => exact absurd rfl hne
  | case2 s members => exact iff_of_true ⟨_, rfl⟩ (leadsThroughMappings_singleton_iff.2 trivial)
  | case3 s rest members hrest ih =>
      rw [leadsThroughMappings_cons_iff, ← ih hrest]
      constructor
      · rintro ⟨w, h⟩
        obtain ⟨inner, hinner, _⟩ := Option.bind_eq_some_iff.1 h
        exact ⟨inner, hinner⟩
      · rintro ⟨inner, hinner⟩
        exact ⟨_, Option.bind_eq_some_iff.2 ⟨inner, hinner, rfl⟩⟩
  | case4 way v _ _ hdict =>
      refine iff_of_false (by rintro ⟨_, ⟨⟩⟩) fun h => ?_
      obtain ⟨members, hv⟩ := Value.exists_dict_of_isMapping (h [] List.nil_prefix hne.symm v rfl)
      obtain ⟨s, rest, hway⟩ := List.exists_cons_of_ne_nil hne
      exact hdict s rest members hway hv

theorem place_of_not_isMapping (hv : ¬v.IsMapping) : place key way v = none := by
  fun_induction place key way v with
  | case1 => rfl
  | case2 => exact absurd trivial hv
  | case3 => exact absurd trivial hv
  | case4 => rfl

end Place

/-! ### Field by field -/

/-- A value in which what a way leads to is replaced. -/
def replaceAt (new : Value) : List String → Value → Value
  | [], _ => new
  | s :: rest, .dict members =>
    match Value.member? s members with
    | some v => .dict (Value.setMember s (replaceAt new rest v) members)
    | none => .dict members
  | _ :: _, v => v

/-- Changes the members of the mapping that a way leads to. What is there instead of a mapping is refused. -/
def changeAt (path : String) (way : List String)
    (change : List (Value × Value) → List (Value × Value)) : Effect Value Unit := fun v =>
  match follow way v with
  | some (.dict members) => .ok () (replaceAt (.dict (change members)) way v)
  | _ => .error (.store (.cannotInject path)) v

/-- The members of a mapping after an empty mapping is put where a name is missing. -/
def provide (s : String) (members : List (Value × Value)) : List (Value × Value) :=
  match Value.member? s members with
  | some _ => members
  | none => Value.setMember s (.dict []) members

/-- Goes on from where a way has led: field by field to the last one, which gets the key. -/
def writeAlong (path : String) (key : Value) : List String → List String → Effect Value Unit
  | _, [] => pure ()
  | way, [s] => changeAt path way (Value.setMember s key)
  | way, s :: rest => do
    changeAt path way (provide s)
    writeAlong path key (way ++ [s]) rest

/-- Writes a key into a value that is changed in place. -/
def write (path : String) (key : Value) : Effect Value Unit := writeAlong path key [] (segments path)

section Write

variable {path s : String} {key v w new : Value} {way : List String} {members : List (Value × Value)}

theorem follow_replaceAt (h : follow way v = some w) (new : Value) :
    follow way (replaceAt new way v) = some new := by
  induction way generalizing v with
  | nil => rfl
  | cons s rest ih =>
      obtain ⟨u, hu, hrest⟩ := Option.bind_eq_some_iff.1 h
      cases v with
      | dict members =>
          rw [Value.field?] at hu
          rw [replaceAt, hu, follow, Value.field?, Value.member?_setMember, if_pos rfl]
          exact ih hrest
      | _ => cases hu

theorem replaceAt_replaceAt (way : List String) (v w new : Value) :
    replaceAt new way (replaceAt w way v) = replaceAt new way v := by
  induction way generalizing v with
  | nil => rfl
  | cons s rest ih =>
      cases v with
      | dict members =>
          cases hmember : Value.member? s members with
          | none => simp [replaceAt, hmember]
          | some u => simp [replaceAt, hmember, Value.member?_setMember, Value.setMember_setMember_self, ih]
      | _ => rfl

/-- What replaces a field replaces the mapping that it belongs to by one with the new field. -/
theorem replaceAt_append (h : follow way v = some (.dict members)) (hs : (Value.member? s members).isSome)
    (new : Value) :
    replaceAt new (way ++ [s]) v = replaceAt (.dict (Value.setMember s new members)) way v := by
  induction way generalizing v with
  | nil =>
      cases h
      obtain ⟨u, hu⟩ := Option.isSome_iff_exists.1 hs
      simp [replaceAt, hu]
  | cons t rest ih =>
      obtain ⟨u, hu, hrest⟩ := Option.bind_eq_some_iff.1 h
      cases v with
      | dict fields =>
          rw [Value.field?] at hu
          simp only [List.cons_append, replaceAt, hu, ih hrest]
      | _ => cases hu

theorem replaceAt_self (h : follow way v = some w) : replaceAt w way v = v := by
  induction way generalizing v with
  | nil =>
      cases h
      rfl
  | cons s rest ih =>
      obtain ⟨u, hu, hrest⟩ := Option.bind_eq_some_iff.1 h
      cases v with
      | dict members =>
          rw [Value.field?] at hu
          simp only [replaceAt, hu, ih hrest, Value.setMember_of_member?_eq hu]
      | _ => cases hu

theorem changeAt_of_isMapping (h : follow way v = some (.dict members))
    (change : List (Value × Value) → List (Value × Value)) :
    changeAt path way change v = .ok () (replaceAt (.dict (change members)) way v) := by
  rw [changeAt, h]

theorem changeAt_of_not_isMapping (h : follow way v = some w) (hw : ¬w.IsMapping)
    (change : List (Value × Value) → List (Value × Value)) :
    changeAt path way change v = .error (.store (.cannotInject path)) v := by
  rw [changeAt, h]
  cases w with
  | dict members => exact absurd trivial hw
  | _ => rfl

/-- A field that is there leads on to what is in it, and one that is not there to a new mapping. The rest of
the value stays. -/
theorem changeAt_provide (path s : String) (h : follow way v = some (.dict members)) : ∃ u,
    changeAt path way (provide s) v = .ok () u ∧ (Value.member? s members ≠ none → u = v) ∧
      follow (way ++ [s]) u = some ((Value.member? s members).getD (.dict [])) ∧
      ∀ new, replaceAt new (way ++ [s]) u = replaceAt (.dict (Value.setMember s new members)) way v := by
  refine ⟨_, changeAt_of_isMapping h _, ?_⟩
  cases hmember : Value.member? s members with
  | some u =>
      have hsame : provide s members = members := by rw [provide, hmember]
      rw [hsame, replaceAt_self h, follow_append, h]
      refine ⟨fun _ => rfl, ?_, ?_⟩
      · simp [follow, Value.field?, hmember]
      · exact replaceAt_append h (by rw [hmember]; rfl)
  | none =>
      have hnew : provide s members = Value.setMember s (.dict []) members := by rw [provide, hmember]
      rw [hnew]
      have hfollow := follow_replaceAt h (.dict (Value.setMember s (.dict []) members))
      rw [follow_append, hfollow]
      have hthere : Value.member? s (Value.setMember s (.dict []) members) = some (.dict []) := by
        rw [Value.member?_setMember, if_pos rfl]
      refine ⟨fun hsome => absurd rfl hsome, ?_, ?_⟩
      · simp [follow, Value.field?, hthere]
      · intro new
        rw [replaceAt_append hfollow (by rw [hthere]; rfl), Value.setMember_setMember_self, replaceAt_replaceAt]

/-- Where nothing else than mappings is in the way, the key is put at its end; where something else is, nothing
was changed before it was met. -/
theorem writeAlong_eq {rest : List String} (hne : rest ≠ []) (h : follow way v = some w) :
    writeAlong path key way rest v = match place key rest w with
      | some new => .ok () (replaceAt new way v)
      | none => .error (.store (.cannotInject path)) v := by
  induction rest generalizing way v w with
  | nil => exact absurd rfl hne
  | cons s rest ih =>
      by_cases hw : w.IsMapping
      · obtain ⟨members, rfl⟩ := Value.exists_dict_of_isMapping hw
        cases rest with
        | nil => exact changeAt_of_isMapping h _
        | cons t rest =>
            obtain ⟨u, hprovide, hsame, hfollow, hreplace⟩ := changeAt_provide path s h
            refine (Effect.bind_of_ok hprovide _).trans ((ih nofun hfollow).trans ?_)
            rw [place_cons (List.cons_ne_nil t rest)]
            cases hplace : place key (t :: rest) ((Value.member? s members).getD (.dict [])) with
            | some new => exact congrArg (EStateM.Result.ok ()) (hreplace new)
            | none =>
                -- only a field that was there before can be in the way
                have hthere : Value.member? s members ≠ none := by
                  intro hmember
                  rw [hmember] at hplace
                  obtain ⟨new, hnew⟩ := (exists_place_iff key (List.cons_ne_nil t rest)).2
                    (leadsThroughMappings_emptyDict (t :: rest))
                  exact Option.some_ne_none new (hnew.symm.trans hplace)
                rw [hsame hthere]
                rfl
      · rw [place_of_not_isMapping hw]
        cases rest with
        | nil => exact changeAt_of_not_isMapping h hw _
        | cons t rest => exact Effect.bind_of_error (changeAt_of_not_isMapping h hw _) _

/-- Writing in place makes of a value what injecting a key makes of it, and leaves a value alone into which no
key can be injected. -/
theorem write_eq (path : String) (key v : Value) : write path key v = match inject path key v with
    | .ok w => .ok () w
    | .error f => .error (.store f) v := by
  rw [write, writeAlong_eq (segments_ne_nil path) (rfl : follow [] v = some v), inject]
  cases place key (segments path) v with
  | some new => rfl
  | none => rfl

end Write

/-! ### Writing and looking up -/

/-- What becomes of a value into which a key is written: the path leads to the key, and a path that parts from
it leads to where it led before. -/
structure HoldsKeyAt (path : String) (key v w : Value) : Prop where
  found : find? (single path) w = some key
  others : ∀ other, other ≠ "" → IsApartFrom path other → find? (single other) w = find? (single other) v

theorem holdsKeyAt_of_inject {path : String} {key v w : Value} (hne : path ≠ "")
    (h : inject path key v = .ok w) : HoldsKeyAt path key v w := by
  rw [inject] at h
  split at h
  · next hplace =>
    cases h
    constructor
    · rw [find?, findSingle, if_neg hne]
      exact follow_place hplace
    · intro other hother hapart
      rw [find?, find?, findSingle, findSingle, if_neg hother, if_neg hother]
      apply follow_place_of_apart hplace
      · intro hprefix
        rcases eq_or_isExtendedBy_of_prefix hprefix with heq | hext
        · exact hapart.ne heq.symm
        · exact hapart.notBefore hext
      · intro hprefix
        rcases eq_or_isExtendedBy_of_prefix hprefix with heq | hext
        · exact hapart.ne heq
        · exact hapart.notBeyond hext
  · cases h

/-- A key is injected into a value exactly when whatever the fields before the last one lead to is a mapping,
and so is the value itself. It is then found at the path, and nothing is changed for paths that part from it;
else the value is refused and left as it is, also where it is changed in place. -/
theorem inject_inverts_lookup {path : String} (hne : path ≠ "") (key v : Value) :
    ((∃ w, inject path key v = .ok w ∧ write path key v = .ok () w ∧ HoldsKeyAt path key v w) ∨
      ∃ f, inject path key v = .error f ∧ f.name = .data ∧ write path key v = .error (.store f) v) ∧
    ((∃ w, inject path key v = .ok w) ↔ LeadsThroughMappings (segments path) v) := by
  have hwrite := write_eq path key v
  constructor
  · cases hinject : inject path key v with
    | ok w =>
        left
        rw [hinject] at hwrite
        exact ⟨w, rfl, hwrite, holdsKeyAt_of_inject hne hinject⟩
    | error f =>
        right
        rw [hinject] at hwrite
        refine ⟨f, rfl, ?_, hwrite⟩
        rw [inject] at hinject
        split at hinject
        · cases hinject
        · cases hinject
          rfl
  · rw [← exists_place_iff key (segments_ne_nil path), inject]
    cases place key (segments path) v with
    | some w => exact iff_of_true ⟨w, rfl⟩ ⟨w, rfl⟩
    | none => exact iff_of_false (by rintro ⟨_, ⟨⟩⟩) (by rintro ⟨_, ⟨⟩⟩)

/-- A record with a mapping in one field and a number in another. -/
def drawer : Value := .dict [(.text "a", .dict [(.text "c", .int 1)]), (.text "b", .int 2)]

theorem inject_inverts_lookup_drawer :
    "a..c" ≠ "" ∧ (∃ w, inject "a..c" (.int 7) drawer = .ok w ∧
      write "a..c" (.int 7) drawer = .ok () w ∧ HoldsKeyAt "a..c" (.int 7) drawer w) ∧
    "b.d" ≠ "" ∧ ∃ f, inject "b.d" (.int 7) drawer = .error f ∧ f.name = .data ∧
      write "b.d" (.int 7) drawer = .error (.store f) drawer := by
  have hdots : "a..c" ≠ "" := by decide
  have hdot : "b.d" ≠ "" := by decide
  refine ⟨hdots, ?_, hdot, ?_⟩
  · rcases (inject_inverts_lookup hdots (.int 7) drawer).1 with h | ⟨f, hf, _⟩
    · exact h
    · have hok : (inject "a..c" (.int 7) drawer).isOk = true := by decide
      rw [hf] at hok
      cases hok
  · rcases (inject_inverts_lookup hdot (.int 7) drawer).1 with ⟨w, hw, _⟩ | h
    · have hrefused : (inject "b.d" (.int 7) drawer).isOk = false := by decide
      rw [hw] at hrefused
      cases hrefused
    · exact h

end KeyPath
end RecordStore
