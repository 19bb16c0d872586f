import RecordStore.Proofs.Document.RoundTrip
import RecordStore.Proofs.KeyPath

/-!
Records with a key written into them. A record that was read from text can be written as text again
after a number was put into it, wherever it was put, also where the name of a tag is on the way.
-/

namespace RecordStore

namespace Document

/-- A member of a mapping that has a document: its name is text and its value has one too. -/
def HasMember (m : Value × Value) : Prop := (∃ s, m.1 = .text s) ∧ ∃ d, encode m.2 = .ok d

theorem exists_encodeMembers_iff {members : List (Value × Value)} :
    (∃ ds, encodeMembers members = .ok ds) ↔ ∀ m ∈ members, HasMember m := by
  induction members with
  | nil => exact ⟨nofun, fun _ => ⟨[], rfl⟩⟩
  | cons m rest ih =>
      obtain ⟨k, v⟩ := m
      rw [List.forall_mem_cons, ← ih]
      constructor
      · rintro ⟨ds, h⟩
        cases k with
        | text s =>
            obtain ⟨d, hd, h⟩ := bind_eq_ok_iff.1 h
            obtain ⟨others, hothers, _⟩ := bind_eq_ok_iff.1 h
            exact ⟨⟨⟨s, rfl⟩, d, hd⟩, others, hothers⟩
        | _ => cases h
      · rintro ⟨⟨⟨s, hs⟩, d, hd⟩, others, hothers⟩
        cases hs
        refine ⟨(s, d) :: others, ?_⟩
        rw [encodeMembers]
        change encode v = _ at hd
        rw [hd, ok_bind, hothers, ok_bind]

theorem mem_setMember {name : String} {value : Value} {members : List (Value × Value)}
    {m : Value × Value} (h : m ∈ Value.setMember name value members) :
    m = (.text name, value) ∨ m ∈ members := by
  fun_induction Value.setMember name value members with
  | case1 => exact .inl (List.mem_singleton.1 h)
  | case2 v rest => exact (List.mem_cons.1 h).imp_right (List.mem_cons_of_mem _)
  | case3 s v rest hs ih =>
      rcases List.mem_cons.1 h with rfl | h
      · exact .inr List.mem_cons_self
      · exact (ih h).imp_right (List.mem_cons_of_mem _)
  | case4 m' rest hm ih =>
      rcases List.mem_cons.1 h with rfl | h
      · exact .inr List.mem_cons_self
      · exact (ih h).imp_right (List.mem_cons_of_mem _)

theorem exists_encode_dict_iff {members : List (Value × Value)} :
    (∃ d, encode (.dict members) = .ok d) ↔ ∀ m ∈ members, HasMember m := by
  rw [← exists_encodeMembers_iff]
  constructor
  · rintro ⟨d, h⟩
    obtain ⟨ds, hds, _⟩ := map_eq_ok_iff.1 h
    exact ⟨ds, hds⟩
  · rintro ⟨ds, h⟩
    exact ⟨.object ds, map_eq_ok_iff.2 ⟨ds, h, rfl⟩⟩

/-- A record that has a document has one after a key is placed in it. -/
theorem exists_encode_place {key v w : Value} {segments : List String}
    (hk : ∃ d, encode key = .ok d) (hv : ∃ d, encode v = .ok d)
    (h : KeyPath.place key segments v = some w) : ∃ d, encode w = .ok d := by
  fun_induction KeyPath.place key segments v generalizing w with
  | case1 => cases h
  | case2 s members =>
      cases h
      rw [exists_encode_dict_iff] at hv ⊢
      intro m hm
      rcases mem_setMember hm with rfl | hm
      · exact ⟨⟨s, rfl⟩, hk⟩
      · exact hv m hm
  | case3 s rest members hne ih =>
      obtain ⟨inner, hinner, h⟩ := Option.bind_eq_some_iff.1 h
      cases h
      rw [exists_encode_dict_iff] at hv ⊢
      have hmember : ∃ d, encode ((Value.member? s members).getD (.dict [])) = .ok d := by
        cases hs : Value.member? s members with
        | none => exact ⟨.object [], rfl⟩
        | some v => exact (hv _ (Value.mem_of_member? hs)).2
      intro m hm
      rcases mem_setMember hm with rfl | hm
      · exact ⟨⟨s, rfl⟩, ih hmember hinner⟩
      · exact hv m hm
  | case4 => cases h

/-! ### The names of members -/

mutual

/-- A value that has a document has text names in all mappings that are looked at for them. -/
theorem checkNames_of_encode : ∀ {v : Value} {d : Document}, encode v = .ok d →
    checkNames v = .ok ()
  | .list items, _, h => by
    obtain ⟨ds, hds, _⟩ := map_eq_ok_iff.1 h
    exact checkItems_of_encode hds
  | .tuple items, _, h => by
    obtain ⟨ds, hds, _⟩ := map_eq_ok_iff.1 h
    exact checkItems_of_encode hds
  | .dict members, _, h => by
    obtain ⟨ds, hds, _⟩ := map_eq_ok_iff.1 h
    exact checkMembers_of_encode hds
  | .null, _, _ | .bool _, _, _ | .int _, _, _ | .float _, _, _ | .text _, _, _ | .bytes _, _, _
  | .date _, _, _ | .set _, _, _ | .ellipsis, _, _ | .descriptor _, _, _ | .keyRange _, _, _
  | .bare _, _, _ | .keyed _ _, _, _ | .callable _, _, _ => rfl

theorem checkItems_of_encode : ∀ {items : List Value} {ds : List Document},
    encodeItems items = .ok ds → checkItems items = .ok ()
  | [], _, _ => rfl
  | v :: rest, _, h => by
    obtain ⟨d, hd, h⟩ := bind_eq_ok_iff.1 h
    obtain ⟨ds, hds, _⟩ := bind_eq_ok_iff.1 h
    rw [checkItems, checkNames_of_encode hd, ok_bind]
    exact checkItems_of_encode hds

theorem checkMembers_of_encode : ∀ {members : List (Value × Value)} {ds : List (String × Document)},
    encodeMembers members = .ok ds → checkMembers members = .ok ()
  | [], _, _ => rfl
  | (.text _, v) :: rest, _, h => by
    obtain ⟨d, hd, h⟩ := bind_eq_ok_iff.1 h
    obtain ⟨ds, hds, _⟩ := bind_eq_ok_iff.1 h
    rw [checkMembers, checkNames_of_encode hd, ok_bind]
    exact checkMembers_of_encode hds
  | (.null, _) :: _, _, h | (.bool _, _) :: _, _, h | (.int _, _) :: _, _, h
  | (.float _, _) :: _, _, h | (.bytes _, _) :: _, _, h | (.date _, _) :: _, _, h
  | (.list _, _) :: _, _, h | (.tuple _, _) :: _, _, h | (.set _, _) :: _, _, h
  | (.dict _, _) :: _, _, h | (.ellipsis, _) :: _, _, h | (.descriptor _, _) :: _, _, h
  | (.keyRange _, _) :: _, _, h | (.bare _, _) :: _, _, h | (.keyed _ _, _) :: _, _, h
  | (.callable _, _) :: _, _, h => nomatch h

end

end Document

/-- A value that has a document is written as its text. -/
theorem Value.dumps_of_encode {v : Value} {d : Document} (h : Document.encode v = .ok d) :
    v.dumps = .ok (String.ofList d.print) := by
  rw [dumps, Document.ofValue, Document.checkNames_of_encode h, ok_bind, h, map_ok]

theorem Value.exists_dumps_of_encode {v : Value} {d : Document} (h : Document.encode v = .ok d) :
    ∃ s, v.dumps = .ok s :=
  ⟨_, dumps_of_encode h⟩

/-- A record with a key written into it can be written as text. -/
theorem KeyPath.exists_dumps_inject {path : String} {key record v : Value} (hk : key.IsStored)
    (hr : record.IsStored) (h : inject path key record = .ok v) : ∃ s, v.dumps = .ok s := by
  unfold inject at h
  split at h
  · next hplace =>
    cases h
    obtain ⟨dk, hdk, _⟩ := Document.Reader.exists_reads hk
    obtain ⟨dr, hdr, _⟩ := Document.Reader.exists_reads hr
    obtain ⟨d, hd⟩ := Document.exists_encode_place ⟨dk, hdk⟩ ⟨dr, hdr⟩ hplace
    exact Value.exists_dumps_of_encode hd
  · cases h

end RecordStore
