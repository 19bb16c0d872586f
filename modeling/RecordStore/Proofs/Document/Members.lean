import RecordStore.Proofs.Document.Injection
import RecordStore.Proofs.Document.Returns

/-!
Mappings that come back member by member. What is read from the document of a value does not depend on
where the document stands, so a mapping comes back as what its members come back as, one by one. A key
that is put into a mapping comes back in the same place that it has when it is put into what comes back
of the mapping.
-/

namespace RecordStore

open Document

namespace Value

/-- A value has a document, which is read as another value. -/
def ReadsAs (v w : Value) : Prop := ∃ d, encode v = .ok d ∧ Reader.Reads w d

/-! ### Members that are set -/

section Setting

variable {name other : String} {v w : Value} {members : List (Value × Value)}

theorem setMember_setMember_self :
    setMember name v (setMember name w members) = setMember name v members := by
  fun_induction setMember name w members with
  | case1 => simp [setMember]
  | case2 => simp [setMember]
  | case3 s u rest hne ih => rw [setMember, setMember, if_neg hne, if_neg hne, ih]
  | case4 m rest hm ih => rw [setMember.eq_3 _ _ _ _ hm, setMember.eq_3 _ _ _ _ hm, ih]

/-- To set a member to what it is changes nothing. -/
theorem setMember_of_member?_eq (h : member? name members = some v) :
    setMember name v members = members := by
  fun_induction setMember name v members with
  | case1 => cases h
  | case2 u rest =>
      rw [member?, if_pos rfl] at h
      cases h
      rfl
  | case3 s u rest hne ih =>
      rw [member?, if_neg hne] at h
      rw [ih h]
  | case4 m rest hm ih =>
      rw [member?.eq_3 _ _ _ hm] at h
      rw [ih h]

/-- Where there is a member, it makes no difference whether it or another one is set first. -/
theorem setMember_comm (hne : name ≠ other) (h : member? name members ≠ none) :
    setMember other w (setMember name v members) = setMember name v (setMember other w members) := by
  fun_induction setMember name v members with
  | case1 => exact absurd rfl h
  | case2 u rest => rw [setMember, if_neg hne, setMember, if_neg hne, setMember, if_pos rfl]
  | case3 s u rest hs ih =>
      rw [member?, if_neg hs] at h
      by_cases ho : s = other
      · subst ho
        rw [setMember, if_pos rfl, setMember, if_pos rfl, setMember, if_neg hs]
      · rw [setMember, if_neg ho, setMember, if_neg ho, setMember, if_neg hs, ih h]
  | case4 m rest hm ih =>
      rw [member?.eq_3 _ _ _ hm] at h
      have hm' (s : String) (u : Value) (heq : m = (.text s, u)) : False := hm s u heq
      rw [setMember.eq_3 _ _ _ _ hm', setMember.eq_3 _ _ _ _ hm', setMember.eq_3 _ _ _ _ hm', ih h]

/-- A member that is there may be set before others are, or after them. -/
theorem foldl_setMember_comm {fields : List (String × Value)} (hname : name ∉ fields.map Prod.fst)
    (h : member? name members ≠ none) :
    fields.foldl (fun kept (name, v) => setMember name v kept) (setMember name v members) =
      setMember name v (fields.foldl (fun kept (name, v) => setMember name v kept) members) := by
  induction fields generalizing members with
  | nil => rfl
  | cons f rest ih =>
      obtain ⟨s, w⟩ := f
      rw [List.map_cons, List.mem_cons, not_or] at hname
      simp only [List.foldl_cons, setMember_comm hname.1 h]
      refine ih hname.2 ?_
      rwa [member?_setMember, if_neg (Ne.symm hname.1)]

end Setting

end Value

namespace Document

/-- A field is what a member of a mapping is read as. -/
def MemberReadsAs (m : Value × Value) (f : String × Value) : Prop := m.1 = .text f.1 ∧ m.2.ReadsAs f.2

namespace Reader

variable {members : List (Value × Value)} {fields : List (String × Value)}

/-! ### Mappings -/

theorem fieldReads_of_memberValues {ms : List (String × Document)} (hs : ∀ m ∈ ms, IsLegible m.2)
    (h : memberValues ms = .ok fields) : List.Forall₂ FieldReads fields ms := by
  have hvalues := forall₂_of_memberValues h
  clear h
  induction hvalues with
  | nil => exact .nil
  | cons hvalue _ ih =>
      obtain ⟨hd, hs⟩ := List.forall_mem_cons.1 hs
      exact .cons ⟨hvalue.1.symm, reads_of_value hd hvalue.2⟩ (ih hs)

/-- The members of a mapping are read one by one. -/
theorem forall₂_memberReadsAs_iff : List.Forall₂ MemberReadsAs members fields ↔
    ∃ ms, encodeMembers members = .ok ms ∧ List.Forall₂ FieldReads fields ms := by
  induction members generalizing fields with
  | nil =>
      rw [List.forall₂_nil_left_iff]
      constructor
      · rintro rfl
        exact ⟨[], rfl, .nil⟩
      · rintro ⟨_, ⟨⟩, h⟩
        exact List.forall₂_nil_right_iff.1 h
  | cons m rest ih =>
      obtain ⟨k, v⟩ := m
      constructor
      · rintro (_ | @⟨_, f, _, fields, ⟨hname, d, hd, hreads⟩, hrest⟩)
        obtain rfl : k = .text f.1 := hname
        obtain ⟨ms, hms, hfields⟩ := ih.1 hrest
        change encode v = .ok d at hd
        refine ⟨(f.1, d) :: ms, ?_, .cons ⟨rfl, hreads⟩ hfields⟩
        rw [encodeMembers, hd, hms]
        rfl
      · rintro ⟨ms, hms, hfields⟩
        cases k with
        | text s =>
            obtain ⟨d, hd, hms⟩ := bind_eq_ok_iff.1 hms
            obtain ⟨ds, hds, hms⟩ := bind_eq_ok_iff.1 hms
            cases hms
            obtain ⟨f, others, ⟨hname, hreads⟩, hothers, rfl⟩ := List.forall₂_cons_right_iff.1 hfields
            exact .cons ⟨congrArg Value.text hname.symm, d, hd, hreads⟩ (ih.2 ⟨ds, hds, hothers⟩)
        | _ => cases hms

end Reader
end Document

namespace Value

variable {v w key : Value} {name : String} {members kept : List (Value × Value)}
  {fields : List (String × Value)}

theorem clone_of_readsAs (h : v.ReadsAs w) : v.clone = .ok w := by
  obtain ⟨d, hd, hreads⟩ := h
  rw [clone, dumps_of_encode hd]
  dsimp only
  rw [loads_of_reads hreads]

/-- A stored value comes back as it is. -/
theorem clone_of_isStored (h : v.IsStored) : v.clone = .ok v := clone_of_readsAs (Reader.exists_reads h)

/-- A mapping comes back as what is closed of its members as they come back. -/
theorem clone_dict_iff : (dict members).clone = .ok w ↔
    ∃ fields, List.Forall₂ MemberReadsAs members fields ∧ close fields = .ok w := by
  constructor
  · intro h
    obtain ⟨d, hd, hw⟩ := exists_encode_of_clone h
    obtain ⟨ms, hms, rfl⟩ := map_eq_ok_iff.1 hd
    obtain ⟨fields, hfields, hclose⟩ := value_object_eq_ok_iff.1 hw
    have hreads := Reader.fieldReads_of_memberValues (Reader.isLegible_of_encodeMembers hms) hfields
    exact ⟨fields, Reader.forall₂_memberReadsAs_iff.2 ⟨ms, hms, hreads⟩, hclose⟩
  · rintro ⟨fields, hs, hclose⟩
    obtain ⟨ms, hms, hfields⟩ := Reader.forall₂_memberReadsAs_iff.1 hs
    exact clone_of_readsAs ⟨.object ms, by rw [encode, hms, map_ok], Reader.reads_of_close hfields hclose⟩

/-! ### Keys in mappings -/

/-- What is inserted under a name is found under it. -/
theorem member?_insertMember_self : member? name (insertMember (.text name) key members) = some key := by
  fun_induction insertMember (.text name) key members with
  | case1 => exact if_pos rfl
  | case2 k v rest hk =>
      rw [eq_text_of_equals hk]
      exact if_pos rfl
  | case3 k v rest hk ih =>
      cases k with
      | text s =>
          have hne : s ≠ name := fun heq => hk (heq ▸ beq_self_eq_true s)
          rw [member?, if_neg hne, ih]
      | _ => exact ih

/-- What comes back of a mapping with a key that was put into it, field by field: each name is given the
last of its values, so the key may as well be set at the end. -/
theorem exists_fields_insertMember (name : String) (hkey : key.IsStored) (hm : MembersProper members)
    (hs : List.Forall₂ MemberReadsAs members fields) :
    ∃ others, List.Forall₂ MemberReadsAs (insertMember (.text name) key members) others ∧
      ∀ kept, others.foldl (fun kept (name, v) => setMember name v kept) kept =
        setMember name key (fields.foldl (fun kept (name, v) => setMember name v kept) kept) := by
  have hkeyReads : MemberReadsAs (.text name, key) (name, key) := ⟨rfl, Reader.exists_reads hkey⟩
  induction hs with
  | nil => exact ⟨[(name, key)], .cons hkeyReads .nil, fun _ => rfl⟩
  | @cons m f members fields h hs ih =>
      obtain ⟨k, v⟩ := m
      obtain ⟨s, w⟩ := f
      obtain ⟨rfl, hv⟩ : k = .text s ∧ v.ReadsAs w := h
      have hequals : (text s).equals (.text name) = (s == name) := rfl
      rw [insertMember, hequals]
      by_cases hname : s = name
      · subst hname
        rw [if_pos (beq_self_eq_true s)]
        refine ⟨(s, key) :: fields, .cons hkeyReads hs, fun kept => ?_⟩
        have habsent : s ∉ fields.map Prod.fst :=
          Reader.not_mem_names_of_member? (hs.imp fun _ _ => And.left) (hm.2.1 s rfl)
        have hthere : member? s (setMember s w kept) ≠ none := by
          rw [member?_setMember, if_pos rfl]
          exact nofun
        rw [List.foldl_cons, List.foldl_cons, ← foldl_setMember_comm habsent hthere,
          setMember_setMember_self]
      · rw [if_neg (by rwa [beq_iff_eq])]
        obtain ⟨others, hothers, hfold⟩ := ih hm.2.2
        exact ⟨(s, w) :: others, .cons ⟨rfl, hv⟩ hothers, fun kept => hfold _⟩

/-- Nothing comes back as the mapping without members but that mapping. -/
theorem eq_nil_of_clone (hm : MembersProper members) (h : (dict members).clone = .ok (dict [])) :
    members = [] := by
  obtain ⟨fields, hs, hclose⟩ := clone_dict_iff.1 h
  have hnodup := Reader.nodup_names (hs.imp fun _ _ => And.left) hm
  cases hs with
  | nil => rfl
  | @cons m f members fields _ _ =>
      have hmember := Reader.member?_foldl_setMember hnodup List.mem_cons_self []
      rw [← Reader.eq_of_close_eq_dict hclose] at hmember
      cases hmember

/-- A mapping with a key that was put into it comes back as the mapping does, with the key in it, unless
the key is all that is in it and under the name of a tag. -/
theorem clone_insertMember (hm : MembersProper members) (hkey : key.IsStored)
    (htag : IsTag name → members ≠ []) (h : (dict members).clone = .ok (dict kept)) :
    (dict (insertMember (.text name) key members)).clone = .ok (dict (setMember name key kept)) := by
  obtain ⟨fields, hs, hclose⟩ := clone_dict_iff.1 h
  obtain ⟨others, hothers, hfold⟩ := exists_fields_insertMember name hkey hm hs
  have hset := hfold []
  rw [← Reader.eq_of_close_eq_dict hclose] at hset
  have hstored := isStored_of_clone h
  refine clone_dict_iff.2 ⟨others, hothers, ?_⟩
  simp only [close, hset]
  split
  · next s v heq =>
    have hnot : ¬IsTag s := by
      rcases setMember_eq_singleton hstored.1 heq with ⟨rfl, rfl⟩ | ⟨w, rfl⟩
      · exact fun hs => htag hs (eq_nil_of_clone hm h)
      · exact hstored.2 s w rfl
    rw [IsTag, not_or, not_or] at hnot
    rw [if_neg hnot.1, if_neg hnot.2.1, if_neg hnot.2.2]
  · rfl

end Value
end RecordStore
