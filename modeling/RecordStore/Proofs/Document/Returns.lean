import RecordStore.Proofs.Document.Legible

/-!
What comes back of a value that is written and read. Lists and tuples come back as lists of what comes
back of their items; a mapping comes back with each of its members, unless it has the form of a tagged
object and comes back as something that is no mapping. The induction is on the value, as in the proof
that stored values come back as they were, but here its document may also stand for nothing.
-/

namespace RecordStore

open Document

namespace Value

mutual

/-- No name occurs twice in a mapping, at any depth of lists, sets and mappings. -/
def IsProper : Value → Prop
  | .list items => AllProper items
  | .tuple items => AllProper items
  | .set items => AllProper items
  | .dict members => MembersProper members
  | _ => True

def AllProper : List Value → Prop
  | [] => True
  | v :: rest => IsProper v ∧ AllProper rest

def MembersProper : List (Value × Value) → Prop
  | [] => True
  | (name, v) :: rest => IsProper v ∧ (∀ s, name = .text s → member? s rest = none) ∧ MembersProper rest

end

mutual

theorem isProper_of_isStored : ∀ {v : Value}, v.IsStored → v.IsProper
  | .list _, h => allProper_of_allStored h
  | .set _, h => allProper_of_allStored h.1
  | .dict _, h => membersProper_of_membersStored h.1
  | .null, _ | .bool _, _ | .int _, _ | .float _, _ | .text _, _ | .bytes _, _ | .date _, _ => trivial

theorem allProper_of_allStored : ∀ {items : List Value}, AllStored items → AllProper items
  | [], _ => trivial
  | _ :: _, h => ⟨isProper_of_isStored h.1, allProper_of_allStored h.2⟩

theorem membersProper_of_membersStored : ∀ {members : List (Value × Value)},
    MembersStored members → MembersProper members
  | [], _ => trivial
  | (.text _, _) :: _, h => ⟨isProper_of_isStored h.1, by rintro s ⟨⟩; exact h.2.1,
      membersProper_of_membersStored h.2.2⟩

end

mutual

/-- What may come back of a value. Of kinds that are no keys and have no fields, nothing is told. -/
def Returns : Value → Value → Prop
  | .int n, w => w = .int n
  | .float x, w => x.isNaN = false → w = .float x
  | .text s, w => w = .text s
  | .bytes b, w => w = .bytes b
  | .list items, w => ∃ others, w = .list others ∧ AllReturn items others
  | .tuple items, w => ∃ others, w = .list others ∧ AllReturn items others
  | .dict members, w => (∃ others, w = .dict others ∧ MembersReturn members others) ∨
      ∀ others, w ≠ .dict others
  | _, _ => True

def AllReturn : List Value → List Value → Prop
  | [], others => others = []
  | v :: rest, others => ∃ w more, others = w :: more ∧ Returns v w ∧ AllReturn rest more

/-- All names of members are texts, and what comes back of a member is under its name. -/
def MembersReturn : List (Value × Value) → List (Value × Value) → Prop
  | [], _ => True
  | (name, v) :: rest, others =>
    (∃ s w, name = .text s ∧ member? s others = some w ∧ Returns v w) ∧ MembersReturn rest others

end

theorem allReturn_iff {items others : List Value} :
    AllReturn items others ↔ List.Forall₂ Returns items others := by
  induction items generalizing others with
  | nil => rw [AllReturn, List.forall₂_nil_left_iff]
  | cons v rest ih =>
      rw [AllReturn, List.forall₂_cons_left_iff]
      simp only [ih]
      constructor
      · rintro ⟨w, more, h, hw, hmore⟩
        exact ⟨w, more, hw, hmore, h⟩
      · rintro ⟨w, more, hw, hmore, h⟩
        exact ⟨w, more, h, hw, hmore⟩

end Value

namespace Document

/-- A field is what comes back of a member. -/
def MemberReturns (m : Value × Value) (f : String × Value) : Prop := m.1 = .text f.1 ∧ m.2.Returns f.2

namespace Reader

open Value (IsProper AllProper MembersProper Returns AllReturn MembersReturn)

/-! ### Closing an object -/

theorem setOf_ne_dict {v : Value} {members : List (Value × Value)} : setOf v ≠ .ok (.dict members) := by
  have hitems (items : List Value) : setOfItems items ≠ .ok (.dict members) := by
    unfold setOfItems
    split <;> exact nofun
  cases v with
  | list items => exact hitems items
  | tuple items => exact hitems items
  | text s => exact hitems _
  | bytes b => exact hitems _
  | dict others => exact hitems _
  | _ => exact nofun

theorem dateOf_ne_dict {v : Value} {members : List (Value × Value)} :
    dateOf v ≠ .ok (.dict members) := by
  unfold dateOf
  split
  · split <;> exact nofun
  · exact nofun

theorem bytesOf_ne_dict {v : Value} {members : List (Value × Value)} :
    bytesOf v ≠ .ok (.dict members) := by
  have hascii (b : List UInt8) : bytesOf.ofAscii b ≠ .ok (.dict members) := by
    unfold bytesOf.ofAscii
    split <;> exact nofun
  unfold bytesOf
  split
  · split
    · exact hascii _
    · exact nofun
  · exact hascii _
  · exact nofun

/-- An object is closed to the mapping of its fields, if to a mapping at all. -/
theorem eq_of_close_eq_dict {fields : List (String × Value)} {members : List (Value × Value)}
    (h : close fields = .ok (.dict members)) :
    members = fields.foldl (fun kept (name, v) => Value.setMember name v kept) [] := by
  simp only [close] at h
  split at h
  · next heq =>
    split at h
    · exact absurd h dateOf_ne_dict
    split at h
    · exact absurd h bytesOf_ne_dict
    split at h
    · exact absurd h setOf_ne_dict
    · cases h
      rfl
  · cases h
    rfl

/-- Of fields that are set one after the other, each is there if its name occurs once. -/
theorem member?_foldl_setMember {fields : List (String × Value)} (hn : (fields.map Prod.fst).Nodup)
    {f : String × Value} (hf : f ∈ fields) (kept : List (Value × Value)) :
    Value.member? f.1 (fields.foldl (fun kept (name, v) => Value.setMember name v kept) kept) =
      some f.2 := by
  have hothers (name : String) (fields : List (String × Value)) (hname : name ∉ fields.map Prod.fst)
      (kept : List (Value × Value)) : Value.member? name
        (fields.foldl (fun kept (name, v) => Value.setMember name v kept) kept) =
          Value.member? name kept := by
    induction fields generalizing kept with
    | nil => rfl
    | cons g rest ih =>
        rw [List.map_cons, List.mem_cons, not_or] at hname
        rw [List.foldl_cons, ih hname.2, Value.member?_setMember, if_neg (Ne.symm hname.1)]
  induction fields generalizing kept with
  | nil => cases hf
  | cons g rest ih =>
      rw [List.map_cons, List.nodup_cons] at hn
      rw [List.foldl_cons]
      rcases List.mem_cons.1 hf with rfl | hf
      · rw [hothers _ _ hn.1, Value.member?_setMember, if_pos rfl]
      · exact ih hn.2 hf _

/-! ### Documents of values -/

theorem membersReturn_iff {members others : List (Value × Value)} : MembersReturn members others ↔
    ∀ m ∈ members, ∃ s w, m.1 = .text s ∧ Value.member? s others = some w ∧ m.2.Returns w := by
  induction members with
  | nil => exact ⟨fun _ => nofun, fun _ => trivial⟩
  | cons m rest ih => rw [MembersReturn, ih, List.forall_mem_cons]

/-- Where a mapping has no member there is no field of that name. -/
theorem not_mem_names_of_member? {α : Type} {name : String} {members : List (Value × Value)}
    {fields : List (String × α)} (hs : List.Forall₂ (fun m f => m.1 = .text f.1) members fields)
    (h : Value.member? name members = none) : name ∉ fields.map Prod.fst := by
  induction hs with
  | nil => exact List.not_mem_nil
  | @cons m f members fields hf _ ih =>
      obtain ⟨k, v⟩ := m
      obtain rfl : k = .text f.1 := hf
      rw [Value.member?] at h
      split at h
      · cases h
      · next hne =>
        rw [List.map_cons, List.mem_cons, not_or]
        exact ⟨Ne.symm hne, ih h⟩

theorem nodup_names {α : Type} {members : List (Value × Value)} {fields : List (String × α)}
    (hs : List.Forall₂ (fun m f => m.1 = .text f.1) members fields) (hm : MembersProper members) :
    (fields.map Prod.fst).Nodup := by
  induction hs with
  | nil => exact List.nodup_nil
  | @cons m f members fields hf hs ih =>
      obtain ⟨k, v⟩ := m
      rw [List.map_cons, List.nodup_cons]
      exact ⟨not_mem_names_of_member? hs (hm.2.1 _ hf), ih hm.2.2⟩

/-- What comes back of a mapping has its members, if it is a mapping. -/
theorem returns_of_close {members : List (Value × Value)} {fields : List (String × Value)} {w : Value}
    (hfields : List.Forall₂ MemberReturns members fields) (hm : MembersProper members)
    (hclose : close fields = .ok w) : (Value.dict members).Returns w := by
  by_cases hdict : ∃ others, w = .dict others
  · obtain ⟨others, rfl⟩ := hdict
    have hnames : List.Forall₂ (fun m f => m.1 = Value.text f.1) members fields :=
      hfields.imp fun _ _ => And.left
    refine .inl ⟨others, rfl, membersReturn_iff.2 fun m hmem => ?_⟩
    obtain ⟨f, hf, hname, hreturns⟩ := exists_mem_of_forall₂ hfields hmem
    rw [eq_of_close_eq_dict hclose]
    exact ⟨f.1, f.2, hname, member?_foldl_setMember (nodup_names hnames hm) hf [], hreturns⟩
  · exact .inr fun others h => hdict ⟨others, h⟩

mutual

/-- What the document of a value stands for is what may come back of the value. -/
theorem returns_of_value : ∀ {v w : Value} {d : Document}, v.IsProper → encode v = .ok d →
    value d = .ok w → v.Returns w
  | .int n, _, _, _, h, hw => by
    rw [encode] at h
    split at h
    · cases h
    · cases h
      cases hw
      rfl
  | .float x, _, _, _, h, hw => by
    cases h
    cases hw
    exact fun hnan => by rw [hnan]; rfl
  | .text s, _, _, _, h, hw => by
    cases h
    cases hw
    rfl
  | .bytes b, _, _, _, h, hw => by
    have hbytes := (reads_bytes b).value_eq (isLegible_of_encode (v := .bytes b) rfl)
    cases h
    rw [hbytes] at hw
    cases hw
    rfl
  | .list items, _, _, hv, h, hw => by
    obtain ⟨ds, hds, rfl⟩ := map_eq_ok_iff.1 h
    obtain ⟨vs, hvs, rfl⟩ := map_eq_ok_iff.1 hw
    exact ⟨vs, rfl, allReturn_of_values hv hds hvs⟩
  | .tuple items, _, _, hv, h, hw => by
    obtain ⟨ds, hds, rfl⟩ := map_eq_ok_iff.1 h
    obtain ⟨vs, hvs, rfl⟩ := map_eq_ok_iff.1 hw
    exact ⟨vs, rfl, allReturn_of_values hv hds hvs⟩
  | .dict members, _, _, hv, h, hw => by
    obtain ⟨ms, hms, rfl⟩ := map_eq_ok_iff.1 h
    obtain ⟨fields, hfields, hclose⟩ := value_object_eq_ok_iff.1 hw
    exact returns_of_close (memberReturns_of_memberValues hv hms hfields) hv hclose
  | .null, _, _, _, _, _ | .bool _, _, _, _, _, _ | .date _, _, _, _, _, _ | .set _, _, _, _, _, _ => trivial
  | .ellipsis, _, _, _, h, _ | .descriptor _, _, _, _, h, _ | .keyRange _, _, _, _, h, _
  | .bare _, _, _, _, h, _ | .keyed _ _, _, _, _, h, _ | .callable _, _, _, _, h, _ => nomatch h

theorem allReturn_of_values : ∀ {items vs : List Value} {ds : List Document}, AllProper items →
    encodeItems items = .ok ds → values ds = .ok vs → AllReturn items vs
  | [], _, _, _, h, hvs => by
    cases h
    cases hvs
    rfl
  | v :: rest, _, _, hv, h, hvs => by
    obtain ⟨d, hd, h⟩ := bind_eq_ok_iff.1 h
    obtain ⟨ds, hds, h⟩ := bind_eq_ok_iff.1 h
    cases h
    obtain ⟨w, hw, hvs⟩ := bind_eq_ok_iff.1 hvs
    obtain ⟨ws, hws, hvs⟩ := bind_eq_ok_iff.1 hvs
    cases hvs
    exact ⟨w, ws, rfl, returns_of_value hv.1 hd hw, allReturn_of_values hv.2 hds hws⟩

theorem memberReturns_of_memberValues : ∀ {members : List (Value × Value)}
    {ms : List (String × Document)} {fields : List (String × Value)}, MembersProper members →
      encodeMembers members = .ok ms → memberValues ms = .ok fields →
        List.Forall₂ MemberReturns members fields
  | [], _, _, _, h, hfields => by
    cases h
    cases hfields
    exact .nil
  | (.text s, v) :: rest, _, _, hm, h, hfields => by
    obtain ⟨d, hd, h⟩ := bind_eq_ok_iff.1 h
    obtain ⟨ds, hds, h⟩ := bind_eq_ok_iff.1 h
    cases h
    obtain ⟨w, hw, hfields⟩ := bind_eq_ok_iff.1 hfields
    obtain ⟨ws, hws, hfields⟩ := bind_eq_ok_iff.1 hfields
    cases hfields
    exact .cons ⟨rfl, returns_of_value hm.1 hd hw⟩ (memberReturns_of_memberValues hm.2.2 hds hws)
  | (.null, _) :: _, _, _, _, h, _ | (.bool _, _) :: _, _, _, _, h, _ | (.int _, _) :: _, _, _, _, h, _
  | (.float _, _) :: _, _, _, _, h, _ | (.bytes _, _) :: _, _, _, _, h, _
  | (.date _, _) :: _, _, _, _, h, _ | (.list _, _) :: _, _, _, _, h, _
  | (.tuple _, _) :: _, _, _, _, h, _ | (.set _, _) :: _, _, _, _, h, _
  | (.dict _, _) :: _, _, _, _, h, _ | (.ellipsis, _) :: _, _, _, _, h, _
  | (.descriptor _, _) :: _, _, _, _, h, _ | (.keyRange _, _) :: _, _, _, _, h, _
  | (.bare _, _) :: _, _, _, _, h, _ | (.keyed _ _, _) :: _, _, _, _, h, _
  | (.callable _, _) :: _, _, _, _, h, _ => nomatch h

end

end Reader
end Document

/-- What comes back of a value from storage is what may come back of it. -/
theorem Value.returns_of_clone {v w : Value} (hv : v.IsProper) (h : v.clone = .ok w) : v.Returns w := by
  obtain ⟨d, hd, hw⟩ := exists_encode_of_clone h
  exact Reader.returns_of_value hv hd hw

end RecordStore
