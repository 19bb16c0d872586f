import RecordStore.Proofs.Document.Members
import RecordStore.Proofs.Document.Refusing

/-!
Values that are written but not read. A value that is not refused for its data can only fail for a tag:
there is a mapping in it of the form of a tagged object whose content is not of that kind, or a set with an
element that comes back as something that cannot be in a set. The failure is then not one of the data, but
of another class. Each constructor of misreading is one such place, and the induction on a value finds the
place from the document that stands for nothing.
-/

namespace RecordStore

open Document

namespace Value

/-! ### Values that are misread -/

/-- Somewhere in a value something is written that cannot be read: a mapping that has nothing but a member
under a tag, which comes back as what is no date, no base64, or no content of a set; or a set with an element
that comes back as what cannot be in a set. -/
inductive HoldsMisread : Value → Prop
  | list {items : List Value} {v : Value} : v ∈ items → HoldsMisread v → HoldsMisread (.list items)
  | tuple {items : List Value} {v : Value} : v ∈ items → HoldsMisread v → HoldsMisread (.tuple items)
  | set {items : List Value} {v : Value} : v ∈ items → HoldsMisread v → HoldsMisread (.set items)
  | member {members : List (Value × Value)} {name v : Value} :
      (name, v) ∈ members → HoldsMisread v → HoldsMisread (.dict members)
  | element {items : List Value} {v w : Value} {k : Kind} :
      v ∈ items → v.clone = .ok w → w.unhashable? = some k → HoldsMisread (.set items)
  | dateTag {v w : Value} {f : FormatFault} :
      v.clone = .ok w → dateOf w = .error f → HoldsMisread (.dict [(.text dateTag, v)])
  | bytesTag {v w : Value} {f : FormatFault} :
      v.clone = .ok w → bytesOf w = .error f → HoldsMisread (.dict [(.text bytesTag, v)])
  | setTag {v w : Value} {f : FormatFault} :
      v.clone = .ok w → setOf w = .error f → HoldsMisread (.dict [(.text setTag, v)])

end Value

namespace Document

variable {d : Document} {ds : List Document} {ms : List (String × Document)} {items vs : List Value}
  {members : List (Value × Value)} {fields : List (String × Value)} {f : FormatFault}

/-! ### Documents and their parts -/

theorem names_of_memberValues (h : memberValues ms = .ok fields) :
    fields.map Prod.fst = ms.map Prod.fst := by
  have hs := forall₂_of_memberValues h
  clear h
  induction hs with
  | nil => rfl
  | cons hname _ ih => rw [List.map_cons, List.map_cons, hname.1, ih]

/-- A list stands for nothing if one of its items does. -/
theorem exists_values_error_iff : (∃ f, values ds = .error f) ↔ ∃ d ∈ ds, ∃ f, value d = .error f := by
  induction ds with
  | nil => simp [values]
  | cons d rest ih =>
      rw [values, List.exists_mem_cons_iff, ← ih]
      cases value d with
      | error f => simp
      | ok v => cases values rest <;> simp

theorem exists_memberValues_error_iff :
    (∃ f, memberValues ms = .error f) ↔ ∃ m ∈ ms, ∃ f, value m.2 = .error f := by
  induction ms with
  | nil => simp [memberValues]
  | cons m rest ih =>
      obtain ⟨name, d⟩ := m
      rw [memberValues, List.exists_mem_cons_iff, ← ih]
      cases value d with
      | error f => simp
      | ok v => cases memberValues rest <;> simp

theorem value_list_error_iff : (∃ f, value (.list ds) = .error f) ↔ ∃ d ∈ ds, ∃ f, value d = .error f := by
  rw [← exists_values_error_iff, value]
  cases values ds <;> simp [Except.map]

/-- The elements of a set have the document of a list of them in another order. -/
theorem exists_perm_of_encode_set (h : encode (.set items) = .ok d) : ∃ sorted ds, sorted.Perm items ∧
    encodeItems sorted = .ok ds ∧ d = .object [(setTag, .list ds)] := by
  obtain ⟨ds, hds, rfl⟩ := map_eq_ok_iff.1 h
  rw [sortByLiteral_encode, Reader.sequence_map_encode] at hds
  exact ⟨_, ds, sortByLiteral_perm items, hds, rfl⟩

theorem memberValues_tagged (tag : String) : memberValues [(tag, d)] = (value d).map fun w => [(tag, w)] := by
  rw [memberValues]
  cases value d <;> rfl

theorem value_tagged {tag : String} {w : Value} (h : value d = .ok w) :
    value (.object [(tag, d)]) = close [(tag, w)] := by
  rw [value, memberValues_tagged, h]
  rfl

/-! ### Closing that fails -/

/-- Only an object with one member under a tag cannot be closed, if no name occurs twice. -/
theorem exists_tag_of_close_error (hn : (fields.map Prod.fst).Nodup) (h : close fields = .error f) :
    ∃ tag w, fields = [(tag, w)] ∧ (tag = dateTag ∧ dateOf w = .error f ∨
      tag = bytesTag ∧ bytesOf w = .error f ∨ tag = setTag ∧ setOf w = .error f) := by
  have hmember := fun g hg => Reader.member?_foldl_setMember (f := g) hn hg []
  simp only [close] at h
  split at h
  · next tag w heq =>
    rw [heq] at hmember
    -- each field is the one member that is left
    have hone : ∀ g ∈ fields, g = (tag, w) := by
      intro g hg
      have hfound := hmember g hg
      simp only [Value.member?] at hfound
      split at hfound
      · next hname =>
        cases hfound
        exact Prod.ext hname.symm rfl
      · cases hfound
    have hfields : fields = [(tag, w)] := by
      cases fields with
      | nil => cases heq
      | cons g rest =>
          obtain rfl := hone g List.mem_cons_self
          cases rest with
          | nil => rfl
          | cons other more =>
              obtain rfl := hone other (by simp)
              simp at hn
    refine ⟨tag, w, hfields, ?_⟩
    split at h
    · next hdate => exact .inl ⟨hdate, h⟩
    split at h
    · next hbytes => exact .inr (.inl ⟨hbytes, h⟩)
    split at h
    · next hset => exact .inr (.inr ⟨hset, h⟩)
    · cases h
  · cases h

/-! ### Parts that stand for nothing -/

theorem value_object_error_iff : (∃ f, value (.object ms) = .error f) ↔
    (∃ f, memberValues ms = .error f) ∨
      ∃ fields f, memberValues ms = .ok fields ∧ close fields = .error f := by
  rw [value]
  cases memberValues ms <;> simp

theorem value_tagged_error_iff {tag : String} : (∃ f, value (.object [(tag, d)]) = .error f) ↔
    (∃ f, value d = .error f) ∨ ∃ w f, value d = .ok w ∧ close [(tag, w)] = .error f := by
  rw [value_object_error_iff, memberValues_tagged]
  cases value d <;> simp [Except.map]

theorem setOfItems_error_iff : (∃ f, setOfItems vs = .error f) ↔ ∃ w ∈ vs, ∃ k, w.unhashable? = some k := by
  have hfound : (vs.findSome? Value.unhashable?).isSome ↔ ∃ w ∈ vs, ∃ k, w.unhashable? = some k := by
    rw [List.findSome?_isSome_iff]
    simp only [Option.isSome_iff_exists]
  rw [← hfound, setOfItems]
  cases vs.findSome? Value.unhashable? <;> simp

/-- Items of which one has a document that stands for nothing. -/
theorem exists_mem_of_error (h : encodeItems items = .ok ds) (hf : ∃ d ∈ ds, ∃ f, value d = .error f) :
    ∃ v ∈ items, ∃ d f, encode v = .ok d ∧ value d = .error f := by
  obtain ⟨d, hd, f, hf⟩ := hf
  obtain ⟨v, hv, henc⟩ := exists_mem_of_forall₂ (forall₂_of_encodeItems h).flip hd
  exact ⟨v, hv, d, f, henc, hf⟩

theorem exists_error_of_mem {v : Value} (h : encodeItems items = .ok ds) (hv : v ∈ items)
    (hfails : ∀ d, encode v = .ok d → ∃ f, value d = .error f) : ∃ d ∈ ds, ∃ f, value d = .error f := by
  obtain ⟨d, hd, henc⟩ := exists_mem_of_forall₂ (forall₂_of_encodeItems h) hv
  exact ⟨d, hd, hfails d henc⟩

/-- An object under a tag stands for nothing if its content, as it comes back, is not of its kind. -/
theorem exists_tagged_error {tag : String} {v w : Value} (h : encode (.dict [(.text tag, v)]) = .ok d)
    (hw : v.clone = .ok w) (hclose : close [(tag, w)] = .error f) : ∃ f, value d = .error f := by
  obtain ⟨ms, hms, rfl⟩ := map_eq_ok_iff.1 h
  obtain ⟨e, he, hms⟩ := bind_eq_ok_iff.1 hms
  cases hms
  exact value_tagged_error_iff.2 (.inr ⟨w, f, (Value.clone_eq_ok_iff he).1 hw, hclose⟩)

/-- The document of what holds something that is misread stands for nothing. -/
theorem exists_error_of_holdsMisread {v : Value} (h : v.HoldsMisread) :
    ∀ d, encode v = .ok d → ∃ f, value d = .error f := by
  induction h with
  | list hv _ ih | tuple hv _ ih =>
      intro d hd
      obtain ⟨ds, hds, rfl⟩ := map_eq_ok_iff.1 hd
      exact value_list_error_iff.2 (exists_error_of_mem hds hv ih)
  | set hv _ ih =>
      intro d hd
      obtain ⟨sorted, ds, hperm, hds, rfl⟩ := exists_perm_of_encode_set hd
      apply value_tagged_error_iff.2
      exact .inl (value_list_error_iff.2 (exists_error_of_mem hds (hperm.mem_iff.2 hv) ih))
  | member hm _ ih =>
      intro d hd
      obtain ⟨ms, hms, rfl⟩ := map_eq_ok_iff.1 hd
      obtain ⟨e, he, _, henc⟩ := exists_mem_of_forall₂ (forall₂_of_encodeMembers hms) hm
      exact value_object_error_iff.2 (.inl (exists_memberValues_error_iff.2 ⟨e, he, ih e.2 henc⟩))
  | @element items v w k hv hclone hk =>
      intro d hd
      obtain ⟨sorted, ds, hperm, hds, rfl⟩ := exists_perm_of_encode_set hd
      obtain ⟨e, he, henc⟩ := exists_mem_of_forall₂ (forall₂_of_encodeItems hds) (hperm.mem_iff.2 hv)
      apply value_tagged_error_iff.2
      cases hlist : value (.list ds) with
      | error f => exact .inl ⟨f, rfl⟩
      | ok l =>
          obtain ⟨ws, hws, rfl⟩ := map_eq_ok_iff.1 hlist
          obtain ⟨u, hu, hvalue⟩ := exists_mem_of_forall₂ (forall₂_of_values hws) he
          obtain rfl : w = u := Except.ok.inj (((Value.clone_eq_ok_iff henc).1 hclone).symm.trans hvalue)
          obtain ⟨f, hf⟩ := setOfItems_error_iff.2 ⟨w, hu, k, hk⟩
          exact .inr ⟨_, f, rfl, by rw [Reader.close_setTag, setOf, hf]⟩
  | dateTag hw hf => exact fun d hd => exists_tagged_error hd hw ((Reader.close_dateTag _).trans hf)
  | bytesTag hw hf => exact fun d hd => exists_tagged_error hd hw ((Reader.close_bytesTag _).trans hf)
  | setTag hw hf => exact fun d hd => exists_tagged_error hd hw ((Reader.close_setTag _).trans hf)

/-- An element of a set that cannot be in one as it comes back. -/
theorem holdsMisread_set_of_error (henc : encode (.set items) = .ok (.object [(setTag, .list ds)]))
    (hvs : values ds = .ok vs) (h : close [(setTag, .list vs)] = .error f) :
    (Value.set items).HoldsMisread := by
  obtain ⟨sorted, ds', hperm, hds, heq⟩ := exists_perm_of_encode_set henc
  cases heq
  rw [Reader.close_setTag, setOf] at h
  obtain ⟨w, hw, k, hk⟩ := setOfItems_error_iff.1 ⟨f, h⟩
  obtain ⟨d, hd, hvalue⟩ := exists_mem_of_forall₂ (forall₂_of_values hvs).flip hw
  obtain ⟨v, hv, hd⟩ := exists_mem_of_forall₂ (forall₂_of_encodeItems hds).flip hd
  exact .element (hperm.mem_iff.1 hv) ((Value.clone_eq_ok_iff hd).2 hvalue) hk

/-- A mapping under a tag whose content is not of that kind as it comes back. -/
theorem holdsMisread_dict_of_error (hm : Value.MembersProper members) (hms : encodeMembers members = .ok ms)
    (hfields : memberValues ms = .ok fields) (h : close fields = .error f) :
    (Value.dict members).HoldsMisread := by
  have hnodup := Reader.nodup_names ((forall₂_of_encodeMembers hms).imp fun _ _ => And.left) hm
  rw [← names_of_memberValues hfields] at hnodup
  obtain ⟨tag, w, rfl, htag⟩ := exists_tag_of_close_error hnodup h
  -- the field that is left is read from one member, which one member of the mapping is written as
  obtain ⟨⟨_, e⟩, _, ⟨rfl, hvalue⟩, hnil, rfl⟩ :=
    List.forall₂_cons_right_iff.1 (forall₂_of_memberValues hfields)
  obtain rfl := List.forall₂_nil_right_iff.1 hnil
  obtain ⟨⟨_, v⟩, _, ⟨rfl, henc⟩, hnil, rfl⟩ :=
    List.forall₂_cons_right_iff.1 (forall₂_of_encodeMembers hms)
  obtain rfl := List.forall₂_nil_right_iff.1 hnil
  have hw : v.clone = .ok w := (Value.clone_eq_ok_iff henc).2 hvalue
  rcases htag with ⟨rfl, hf⟩ | ⟨rfl, hf⟩ | ⟨rfl, hf⟩
  · exact .dateTag hw hf
  · exact .bytesTag hw hf
  · exact .setTag hw hf

mutual

/-- If the document of a value stands for nothing, the value holds something that is misread. -/
theorem holdsMisread_of_error : ∀ {v : Value} {d : Document} {f : FormatFault}, v.IsProper →
    encode v = .ok d → value d = .error f → v.HoldsMisread
  | .null, _, _, _, h, hf | .bool _, _, _, _, h, hf | .float _, _, _, _, h, hf
  | .text _, _, _, _, h, hf => by
    cases h
    cases hf
  | .int n, _, _, _, h, hf => by
    rw [encode] at h
    split at h
    · cases h
    · cases h
      cases hf
  | .bytes b, _, _, _, h, hf => by
    have hvalue := (Reader.reads_bytes b).value_eq (Reader.isLegible_of_encode (v := .bytes b) rfl)
    cases h
    rw [hvalue] at hf
    cases hf
  | .date d, _, _, _, h, hf => by
    cases h
    rw [value_tagged rfl, Reader.close_dateTag, dateOf, String.toList_ofList, IsoText.read_text_kept] at hf
    cases hf
  | .list items, _, f, hv, h, hf => by
    obtain ⟨ds, hds, rfl⟩ := map_eq_ok_iff.1 h
    obtain ⟨v, hmem, d, f, henc, hf⟩ := exists_mem_of_error hds (value_list_error_iff.1 ⟨f, hf⟩)
    exact .list hmem (holdsMisread_of_error_of_mem hv hmem henc hf)
  | .tuple items, _, f, hv, h, hf => by
    obtain ⟨ds, hds, rfl⟩ := map_eq_ok_iff.1 h
    obtain ⟨v, hmem, d, f, henc, hf⟩ := exists_mem_of_error hds (value_list_error_iff.1 ⟨f, hf⟩)
    exact .tuple hmem (holdsMisread_of_error_of_mem hv hmem henc hf)
  | .set items, _, f, hv, h, hf => by
    obtain ⟨sorted, ds, hperm, hds, rfl⟩ := exists_perm_of_encode_set h
    rcases value_tagged_error_iff.1 ⟨f, hf⟩ with hlist | ⟨l, f, hl, hclose⟩
    · obtain ⟨v, hmem, d, f, henc, hf⟩ := exists_mem_of_error hds (value_list_error_iff.1 hlist)
      have hmem : v ∈ items := hperm.mem_iff.1 hmem
      exact .set hmem (holdsMisread_of_error_of_mem hv hmem henc hf)
    · obtain ⟨vs, hvs, rfl⟩ := map_eq_ok_iff.1 hl
      exact holdsMisread_set_of_error h hvs hclose
  | .dict members, _, f, hv, h, hf => by
    obtain ⟨ms, hms, rfl⟩ := map_eq_ok_iff.1 h
    rcases value_object_error_iff.1 ⟨f, hf⟩ with hfails | ⟨fields, f, hfields, hclose⟩
    · obtain ⟨e, he, f, hf⟩ := exists_memberValues_error_iff.1 hfails
      obtain ⟨m, hmem, hname, henc⟩ := exists_mem_of_forall₂ (forall₂_of_encodeMembers hms).flip he
      exact .member hmem (holdsMisread_of_error_of_member hv hmem henc hf)
    · exact holdsMisread_dict_of_error hv hms hfields hclose
  | .ellipsis, _, _, _, h, _ | .descriptor _, _, _, _, h, _ | .keyRange _, _, _, _, h, _
  | .bare _, _, _, _, h, _ | .keyed _ _, _, _, _, h, _ | .callable _, _, _, _, h, _ => nomatch h

theorem holdsMisread_of_error_of_mem : ∀ {items : List Value} {v : Value} {d : Document} {f : FormatFault},
    Value.AllProper items → v ∈ items → encode v = .ok d → value d = .error f → v.HoldsMisread
  | w :: rest, _, _, _, hv, hmem, h, hf => by
    rcases List.mem_cons.1 hmem with heq | hmem
    · rw [heq] at h ⊢
      exact holdsMisread_of_error hv.1 h hf
    · exact holdsMisread_of_error_of_mem hv.2 hmem h hf

theorem holdsMisread_of_error_of_member : ∀ {members : List (Value × Value)} {m : Value × Value}
    {d : Document} {f : FormatFault}, Value.MembersProper members → m ∈ members → encode m.2 = .ok d →
      value d = .error f → m.2.HoldsMisread
  | (name, w) :: rest, _, _, _, hv, hmem, h, hf => by
    rcases List.mem_cons.1 hmem with heq | hmem
    · rw [heq] at h ⊢
      exact holdsMisread_of_error hv.1 h hf
    · exact holdsMisread_of_error_of_member hv.2.2 hmem h hf

end

/-! ### The faults of tags -/

/-- A fault of the classes that the contents of tags are refused with. -/
def IsOfTag (f : FormatFault) : Prop :=
  f.category = .type ∨ f.category = .value ∨ f.category = .base64

theorem isOfTag_of_dateOf {w : Value} (h : dateOf w = .error f) : IsOfTag f := by
  simp only [dateOf] at h
  split at h
  · split at h
    · cases h
    · cases h
      exact .inr (.inl rfl)
  · cases h
    exact .inl rfl

theorem isOfTag_of_bytesOf {w : Value} (h : bytesOf w = .error f) : IsOfTag f := by
  have hascii (b : List UInt8) (h : bytesOf.ofAscii b = .error f) : IsOfTag f := by
    rw [bytesOf.ofAscii] at h
    split at h
    · cases h
    · cases h
      exact .inr (.inr rfl)
  simp only [bytesOf] at h
  split at h
  · split at h
    · exact hascii _ h
    · cases h
      exact .inr (.inl rfl)
  · exact hascii _ h
  · cases h
    exact .inl rfl

theorem isOfTag_of_setOf {w : Value} (h : setOf w = .error f) : IsOfTag f := by
  have hitems (vs : List Value) (h : setOfItems vs = .error f) : IsOfTag f := by
    rw [setOfItems] at h
    split at h
    · cases h
      exact .inl rfl
    · cases h
  cases w with
  | list vs | tuple vs | text s | bytes b | dict members => exact hitems _ h
  | set vs => cases h
  | _ =>
      cases h
      exact .inl rfl

theorem isOfTag_of_close (h : close fields = .error f) : IsOfTag f := by
  simp only [close] at h
  split at h
  · split at h
    · exact isOfTag_of_dateOf h
    split at h
    · exact isOfTag_of_bytesOf h
    split at h
    · exact isOfTag_of_setOf h
    · cases h
  · cases h

mutual

/-- A document stands for nothing only for a tag in it. -/
theorem isOfTag_of_value : ∀ {d : Document} {f : FormatFault}, value d = .error f → IsOfTag f
  | .list items, f, h => by
    rw [value] at h
    cases hvs : values items with
    | ok vs =>
        rw [hvs] at h
        cases h
    | error g =>
        rw [hvs] at h
        cases h
        exact isOfTag_of_values hvs
  | .object ms, f, h => by
    rw [value] at h
    cases hfields : memberValues ms with
    | ok fields =>
        rw [hfields] at h
        exact isOfTag_of_close h
    | error g =>
        rw [hfields] at h
        cases h
        exact isOfTag_of_memberValues hfields
  | .null, _, h | .bool _, _, h | .int _, _, h | .float _, _, h | .text _, _, h => nomatch h

theorem isOfTag_of_values : ∀ {ds : List Document} {f : FormatFault}, values ds = .error f → IsOfTag f
  | d :: rest, f, h => by
    rw [values] at h
    cases hv : value d with
    | error g =>
        rw [hv] at h
        cases h
        exact isOfTag_of_value hv
    | ok v =>
        cases hvs : values rest with
        | error g =>
            rw [hv, hvs] at h
            cases h
            exact isOfTag_of_values hvs
        | ok vs =>
            rw [hv, hvs] at h
            cases h

theorem isOfTag_of_memberValues : ∀ {ms : List (String × Document)} {f : FormatFault},
    memberValues ms = .error f → IsOfTag f
  | (name, d) :: rest, f, h => by
    rw [memberValues] at h
    cases hv : value d with
    | error g =>
        rw [hv] at h
        cases h
        exact isOfTag_of_value hv
    | ok v =>
        cases hvs : memberValues rest with
        | error g =>
            rw [hv, hvs] at h
            cases h
            exact isOfTag_of_memberValues hvs
        | ok vs =>
            rw [hv, hvs] at h
            cases h

end

end Document

namespace Value

/-! ### Refused, misread or brought back -/

/-- What can be stored, with no mapping of the form of a tagged object, holds nothing that is misread. -/
theorem not_holdsMisread_of_isStorable {v : Value} (h : v.IsStorable) : ¬v.HoldsMisread := by
  intro hmis
  obtain ⟨d, w, hd, hreads, _⟩ := exists_comesBack h
  obtain ⟨f, hf⟩ := exists_error_of_holdsMisread hmis d hd
  rw [hreads.value_eq (Reader.isLegible_of_encode hd)] at hf
  cases hf

/-- A mapping that has the form of a date, with a number where its text would be. -/
def undated : Value := .ofFields [("$date", .int 1)]

theorem holdsMisread_undated : undated.HoldsMisread := by
  have hone : (Value.int 1).clone = .ok (.int 1) := (clone_eq_ok_iff (d := .int 1) rfl).2 rfl
  exact .dateTag hone rfl

/-- A set with a pair in it. -/
def paired : Value := .set [.tuple [.int 1, .int 2]]

theorem encode_paired :
    encode paired = .ok (.object [("$set", .list [.list [.int 1, .int 2]])]) := by
  have hsort (s : String) (r : Except StoreFault Document) : sortByLiteral [(s, r)] = [r] := by
    simp [sortByLiteral]
  rw [paired, encode, encodeElements, encodeElements, hsort]
  rfl

theorem holdsMisread_paired : paired.HoldsMisread := by
  have hpair : (Value.tuple [.int 1, .int 2]).clone = .ok (.list [.int 1, .int 2]) :=
    (clone_eq_ok_iff (d := .list [.int 1, .int 2]) rfl).2 rfl
  exact .element List.mem_cons_self hpair rfl

theorem isProper_visit : visit.IsProper := by
  simp [visit, ofFields, IsProper, AllProper, MembersProper, member?]

end Value

end RecordStore
