import RecordStore.Proofs.Document.Injection

/-!
Whatever can be stored comes back. A value comes back with lists for its tuples and otherwise as it is,
but for two things: an offset from UTC that is shorter than a second is lost, and so are all but one of
several elements of a set that are not numbers. The induction is on the value, as for stored values, and
finds the document, what is read of it, and how the two values are alike.
-/

namespace RecordStore

open Document

namespace Value

mutual

/-- A value that can be stored, of which no mapping has the form of a tagged object. -/
def IsStorable : Value → Prop
  | .null | .bool _ | .float _ | .text _ | .bytes _ | .date _ => True
  | .int n => (Decimal.digitsOf n.natAbs).length ≤ maxDigits
  | .list items | .tuple items => AllStorable items
  | .set items => AllStorable items ∧ ∀ v ∈ items, IsSingle v
  | .dict members => MembersStorable members ∧ ∀ name v, members = [(.text name, v)] → ¬IsTag name
  | _ => False

def AllStorable : List Value → Prop
  | [] => True
  | v :: rest => IsStorable v ∧ AllStorable rest

/-- The names of members are texts, each of them once. -/
def MembersStorable : List (Value × Value) → Prop
  | [] => True
  | (.text name, v) :: rest => IsStorable v ∧ member? name rest = none ∧ MembersStorable rest
  | _ => False

end

mutual

/-- A value whose offsets are not too short, and whose sets have at most one element that is not a
number. -/
def LosesNothing : Value → Prop
  | .date d => ∀ o ∈ d.offset, IsoText.IsKeptOffset o
  | .list items | .tuple items => AllLoseNothing items
  | .set items => AllLoseNothing items ∧ items.Pairwise fun v w => sameElement v w = false
  | .dict members => MembersLoseNothing members
  | _ => True

def AllLoseNothing : List Value → Prop
  | [] => True
  | v :: rest => LosesNothing v ∧ AllLoseNothing rest

def MembersLoseNothing : List (Value × Value) → Prop
  | [] => True
  | (_, v) :: rest => LosesNothing v ∧ MembersLoseNothing rest

end

theorem allStorable_iff {items : List Value} : AllStorable items ↔ ∀ v ∈ items, v.IsStorable := by
  induction items with
  | nil => simp [AllStorable]
  | cons v rest ih => simp [AllStorable, ih]

/-- All that is not a number is one value. -/
def withoutPayload : Value → Value
  | .float x => .float (if x.isNaN then .nan else x)
  | v => v

/-- A value without parts as it is read back. -/
def readBack : Value → Value
  | .date d => .date (IsoText.kept d)
  | v => v.withoutPayload

end Value

/-! ### Coming back -/

/-- The set of some values has nothing but these, each of them or one that is the same, and none twice. -/
structure Document.IsSetOf (items elements : List Value) : Prop where
  canonical : IsCanonical elements
  mem : ∀ e ∈ elements, e ∈ items
  covers : ∀ v ∈ items, ∃ e ∈ elements, sameElement e v = true

/-- How the smallest parts of a value come back: values without parts, and the elements of sets. -/
structure Return where
  single : Value → Value
  IsSet : List Value → List Value → Prop

namespace Return

/-- Nothing is lost. -/
def whole : Return := ⟨Value.withoutPayload, fun items elements => elements.Perm items⟩

/-- Offsets may be lost, and elements of sets that come back as the same. -/
def actual : Return := ⟨Value.readBack, IsSetOf⟩

end Return

mutual

/-- A value comes back as another: lists and tuples as lists, and mappings with their members in the same
order. -/
inductive ComesBack (r : Return) : Value → Value → Prop
  | single {v : Value} : IsSingle v → ComesBack r v (r.single v)
  | list {items others : List Value} : AllComeBack r items others →
      ComesBack r (.list items) (.list others)
  | tuple {items others : List Value} : AllComeBack r items others →
      ComesBack r (.tuple items) (.list others)
  | set {items elements : List Value} : r.IsSet (items.map r.single) elements →
      ComesBack r (.set items) (.set elements)
  | dict {members others : List (Value × Value)} : MembersComeBack r members others →
      ComesBack r (.dict members) (.dict others)

inductive AllComeBack (r : Return) : List Value → List Value → Prop
  | nil : AllComeBack r [] []
  | cons {v w : Value} {items others : List Value} : ComesBack r v w → AllComeBack r items others →
      AllComeBack r (v :: items) (w :: others)

inductive MembersComeBack (r : Return) : List (Value × Value) → List (Value × Value) → Prop
  | nil : MembersComeBack r [] []
  | cons {name : String} {v w : Value} {members others : List (Value × Value)} : ComesBack r v w →
      MembersComeBack r members others →
      MembersComeBack r ((.text name, v) :: members) ((.text name, w) :: others)

end

namespace Document

/-! ### The elements of sets -/

theorem sameElement_self {v : Value} (h : IsSingle v) : sameElement v v = true := by
  cases v with
  | float x =>
      cases hnan : x.isNaN with
      | true => simp [sameElement, hnan]
      | false => simp [sameElement, Double.equals, hnan]
  | date d =>
      obtain ⟨r, offset, _, _⟩ := d
      cases offset with
      | none => exact beq_self_eq_true r
      | some o => exact beq_self_eq_true (DateTime.instant _)
  | null => rfl
  | bool b => cases b <;> rfl
  | int n => exact beq_self_eq_true n
  | text s => exact beq_self_eq_true s
  | bytes b => exact beq_self_eq_true b
  | _ => exact h.elim

theorem mem_foldl_of_mem {same : Value → Value → Bool} {kept : List Value} (items : List Value)
    {e : Value} (he : e ∈ kept) :
    e ∈ items.foldl (fun kept v => if kept.any (same · v) then kept else kept ++ [v]) kept := by
  induction items generalizing kept with
  | nil => exact he
  | cons v rest ih =>
      rw [List.foldl_cons]
      split
      · exact ih he
      · exact ih (List.mem_append_left _ he)

/-- Of what is the same one is kept. -/
theorem exists_mem_distinctBy {items : List Value} (h : ∀ v ∈ items, IsSingle v) {v : Value}
    (hv : v ∈ items) : ∃ e ∈ Value.distinctBy sameElement items, sameElement e v = true := by
  suffices hfold : ∀ kept : List Value, ∃ e ∈ items.foldl
      (fun kept v => if kept.any (sameElement · v) then kept else kept ++ [v]) kept,
        sameElement e v = true from hfold []
  induction items with
  | nil => cases hv
  | cons w rest ih =>
      intro kept
      obtain ⟨hw, hrest⟩ := List.forall_mem_cons.1 h
      rw [List.foldl_cons]
      rcases List.mem_cons.1 hv with rfl | hv
      · by_cases hkept : (kept.any (sameElement · v)) = true
        · obtain ⟨e, he, hsame⟩ := List.any_eq_true.1 hkept
          rw [if_pos hkept]
          exact ⟨e, mem_foldl_of_mem rest he, hsame⟩
        · rw [if_neg hkept]
          refine ⟨v, mem_foldl_of_mem rest ?_, sameElement_self hw⟩
          exact List.mem_append_right _ (List.mem_singleton_self v)
      · exact ih hrest hv _

theorem exists_isSetOf {items : List Value} (h : ∀ v ∈ items, IsSingle v) :
    ∃ elements, setOfItems items = .ok (.set elements) ∧ IsSetOf items elements := by
  obtain ⟨elements, hset, hcanonical, hmem⟩ := isCanonical_of_setOfItems h
  refine ⟨elements, hset, hcanonical, hmem, fun v hv => ?_⟩
  obtain ⟨e, he, hsame⟩ := exists_mem_distinctBy h hv
  simp only [setOfItems, findSome?_unhashable h] at hset
  cases hset
  exact ⟨e, (sortByLiteral_perm _).mem_iff.2 he, hsame⟩

theorem IsSetOf.of_perm {items others elements : List Value} (h : IsSetOf items elements)
    (hperm : items.Perm others) : IsSetOf others elements where
  canonical := h.canonical
  mem e he := hperm.mem_iff.1 (h.mem e he)
  covers v hv := h.covers v (hperm.mem_iff.2 hv)

theorem nodup_of_pairwise {items : List Value} (h : ∀ v ∈ items, IsSingle v)
    (hd : items.Pairwise fun v w => sameElement v w = false) : items.Nodup := by
  refine hd.imp_of_mem fun {v w} hv _ hvw => ?_
  rintro rfl
  rw [sameElement_self (h v hv)] at hvw
  cases hvw

/-- A set of things no two of which are the same has all of them. -/
theorem IsSetOf.perm {items elements : List Value} (h : IsSetOf items elements)
    (hs : ∀ v ∈ items, IsSingle v) (hd : items.Pairwise fun v w => sameElement v w = false) :
    elements.Perm items := by
  refine (List.perm_ext_iff_of_nodup (nodup_of_pairwise h.canonical.single h.canonical.distinct)
    (nodup_of_pairwise hs hd)).2 fun v => ⟨h.mem v, fun hv => ?_⟩
  obtain ⟨e, he, hsame⟩ := h.covers v hv
  by_contra hne
  have hdiffer : e ≠ v := by
    rintro rfl
    exact hne he
  have hboth : items.Pairwise fun v w => sameElement v w = false ∧ sameElement w v = false :=
    hd.imp_of_mem fun {v w} hv hw hvw => ⟨hvw, by rw [sameElement_comm (hs w hw) (hs v hv), hvw]⟩
  have : Std.Symm fun v w => sameElement v w = false ∧ sameElement w v = false :=
    ⟨fun _ _ hvw => hvw.symm⟩
  have hfalse := hboth.forall (h.mem e he) hv hdiffer
  rw [hfalse.1] at hsame
  cases hsame

/-! ### Values without parts -/

theorem isSingle_readBack {v : Value} (h : IsSingle v) : IsSingle v.readBack := by
  cases v <;> first | exact h.elim | trivial

theorem exists_reads_of_isSingle {v : Value} (h : v.IsStorable) (hs : IsSingle v) :
    ∃ d, encode v = .ok d ∧ Reader.Reads v.readBack d ∧ v.readBack.IsStored := by
  have hstored (hv : v.IsStored) (hback : v.readBack = v) :
      ∃ d, encode v = .ok d ∧ Reader.Reads v.readBack d ∧ v.readBack.IsStored := by
    obtain ⟨d, hd, hreads⟩ := Reader.exists_reads hv
    rw [hback]
    exact ⟨d, hd, hreads, hv⟩
  cases v with
  | float x =>
      cases hnan : x.isNaN with
      | true =>
          have hback : (Value.float x).readBack = .float .nan := by
            rw [Value.readBack, Value.withoutPayload, if_pos hnan]
            exact nofun
          rw [hback]
          exact ⟨_, rfl, Reader.reads_nan hnan, fun _ => rfl⟩
      | false =>
          have hx : x.isNaN = true → x = .nan := by
            rw [hnan]
            exact nofun
          refine hstored hx ?_
          rw [Value.readBack, Value.withoutPayload, hnan]
          · rfl
          · exact nofun
  | date d =>
      refine ⟨_, rfl, Reader.reads_tagged (Reader.reads_text _) ?_, IsoText.isKeptOffset_kept⟩
      rw [Reader.close_dateTag, dateOf, String.toList_ofList, IsoText.read_text_kept]
      rfl
  | null | bool b | text s | bytes b => exact hstored trivial rfl
  | int n => exact hstored h rfl
  | _ => exact hs.elim

/-! ### Sets, lists and mappings -/

theorem sortByLiteral_encode (items : List Value) : sortByLiteral (encodeElements items) =
    (sortByLiteral (withLiterals items)).map encode := by
  have hmap : encodeElements items =
      (withLiterals items).map fun m => (m.1, encode m.2) := by
    rw [Reader.encodeElements_eq, withLiterals, List.map_map]
    rfl
  rw [hmap, sortByLiteral, sortByLiteral,
    ← List.map_mergeSort (r := fun a b => decide (a.1 ≤ b.1)) fun _ _ _ _ => rfl, List.map_map,
    List.map_map]
  rfl

/-- Elements that are put in order are read back one by one. -/
theorem exists_reads_of_elements {items : List Value} (h : ∀ v ∈ items, v.IsStorable)
    (hs : ∀ v ∈ items, IsSingle v) : ∃ ds, encodeItems items = .ok ds ∧
      List.Forall₂ Reader.Reads (items.map Value.readBack) ds ∧
        Value.AllStored (items.map Value.readBack) := by
  induction items with
  | nil => exact ⟨[], rfl, .nil, trivial⟩
  | cons v rest ih =>
      obtain ⟨hv, hrest⟩ := List.forall_mem_cons.1 h
      obtain ⟨hsv, hsrest⟩ := List.forall_mem_cons.1 hs
      obtain ⟨d, hd, hreads, hstored⟩ := exists_reads_of_isSingle hv hsv
      obtain ⟨ds, hds, hall, hallStored⟩ := ih hrest hsrest
      exact ⟨d :: ds, by rw [encodeItems, hd, hds]; rfl, .cons hreads hall, hstored, hallStored⟩

theorem exists_reads_of_set {items : List Value} (h : ∀ v ∈ items, v.IsStorable)
    (hs : ∀ v ∈ items, IsSingle v) : ∃ d elements, encode (.set items) = .ok d ∧
      Reader.Reads (.set elements) d ∧ (Value.set elements).IsStored ∧
        IsSetOf (items.map Value.readBack) elements := by
  have hperm := sortByLiteral_perm items
  obtain ⟨ds, hds, hreads, hstored⟩ := exists_reads_of_elements
    (fun v hv => h v (hperm.mem_iff.1 hv)) fun v hv => hs v (hperm.mem_iff.1 hv)
  have hsingle : ∀ w ∈ (sortByLiteral (withLiterals items)).map Value.readBack, IsSingle w := by
    intro w hw
    obtain ⟨v, hv, rfl⟩ := List.mem_map.1 hw
    exact isSingle_readBack (hs v (hperm.mem_iff.1 hv))
  obtain ⟨elements, hset, hsetOf⟩ := exists_isSetOf hsingle
  refine ⟨.object [(setTag, .list ds)], elements, ?_, ?_, ⟨?_, hsetOf.canonical⟩,
    hsetOf.of_perm (hperm.map _)⟩
  · rw [encode, sortByLiteral_encode, Reader.sequence_map_encode, hds, map_ok]
  · refine Reader.reads_tagged (Reader.reads_list hreads) ?_
    rw [Reader.close_setTag, setOf, hset]
  · exact Value.allStored_iff.2 fun e he => Value.allStored_iff.1 hstored e (hsetOf.mem e he)

/-- The members of a mapping are read back under their names. -/
structure MembersReadBack (members : List (Value × Value)) (fields : List (String × Value))
    (ms : List (String × Document)) : Prop where
  encoded : encodeMembers members = .ok ms
  reads : List.Forall₂ Reader.FieldReads fields ms
  stored : Value.MembersStored (fields.map fun f => (.text f.1, f.2))
  back : MembersComeBack .actual members (fields.map fun f => (.text f.1, f.2))
  absent : ∀ name, Value.member? name members = none →
    Value.member? name (fields.map fun f => (.text f.1, f.2)) = none

theorem MembersReadBack.nil : MembersReadBack [] [] [] := ⟨rfl, .nil, trivial, .nil, fun _ _ => rfl⟩

theorem MembersReadBack.cons {name : String} {v w : Value} {d : Document}
    {members : List (Value × Value)} {fields : List (String × Value)} {ms : List (String × Document)}
    (hd : encode v = .ok d) (hreads : Reader.Reads w d) (hstored : w.IsStored)
    (hback : ComesBack .actual v w) (hname : Value.member? name members = none)
    (h : MembersReadBack members fields ms) :
    MembersReadBack ((.text name, v) :: members) ((name, w) :: fields) ((name, d) :: ms) where
  encoded := by
    rw [encodeMembers, hd, h.encoded]
    rfl
  reads := .cons ⟨rfl, hreads⟩ h.reads
  stored := ⟨hstored, h.absent name hname, h.stored⟩
  back := .cons hback h.back
  absent other hother := by
    rw [Value.member?] at hother
    rw [List.map_cons, Value.member?]
    split at hother
    · cases hother
    · next hne =>
      rw [if_neg hne]
      exact h.absent other hother

theorem MembersReadBack.exists_reads {members : List (Value × Value)} {fields : List (String × Value)}
    {ms : List (String × Document)} (h : MembersReadBack members fields ms)
    (htag : ∀ name v, members = [(.text name, v)] → ¬IsTag name) : ∃ d w,
      encode (.dict members) = .ok d ∧ Reader.Reads w d ∧ w.IsStored ∧
        ComesBack .actual (.dict members) w := by
  have hstored : (Value.dict (fields.map fun f => (.text f.1, f.2))).IsStored := by
    refine ⟨h.stored, fun name w heq => ?_⟩
    have hback := h.back
    rw [heq] at hback
    cases hback with
    | cons hv hrest =>
        cases hrest
        exact htag name _ rfl
  exact ⟨.object ms, _, by rw [encode, h.encoded, map_ok],
    Reader.reads_of_close h.reads (Reader.close_of_isStored hstored), hstored, .dict h.back⟩

mutual

/-- A value that can be stored has a document, which is read as what comes back. -/
theorem exists_comesBack : ∀ {v : Value}, v.IsStorable → ∃ d w, encode v = .ok d ∧
    Reader.Reads w d ∧ w.IsStored ∧ ComesBack .actual v w
  | .null, h | .bool _, h | .int _, h | .float _, h | .text _, h | .bytes _, h | .date _, h => by
    obtain ⟨d, hd, hreads, hstored⟩ := exists_reads_of_isSingle h trivial
    exact ⟨d, _, hd, hreads, hstored, .single trivial⟩
  | .list items, h => by
    obtain ⟨ds, others, hds, hreads, hstored, hback⟩ := exists_allComeBack h
    exact ⟨.list ds, .list others, by rw [encode, hds, map_ok], Reader.reads_list hreads, hstored,
      .list hback⟩
  | .tuple items, h => by
    obtain ⟨ds, others, hds, hreads, hstored, hback⟩ := exists_allComeBack h
    exact ⟨.list ds, .list others, by rw [encode, hds, map_ok], Reader.reads_list hreads, hstored,
      .tuple hback⟩
  | .set items, h => by
    obtain ⟨d, elements, hd, hreads, hstored, hset⟩ :=
      exists_reads_of_set (Value.allStorable_iff.1 h.1) h.2
    exact ⟨d, _, hd, hreads, hstored, .set hset⟩
  | .dict members, h => by
    obtain ⟨fields, ms, hmembers⟩ := exists_membersComeBack h.1
    exact hmembers.exists_reads h.2

theorem exists_allComeBack : ∀ {items : List Value}, Value.AllStorable items → ∃ ds others,
    encodeItems items = .ok ds ∧ List.Forall₂ Reader.Reads others ds ∧ Value.AllStored others ∧
      AllComeBack .actual items others
  | [], _ => ⟨[], [], rfl, .nil, trivial, .nil⟩
  | v :: rest, h => by
    obtain ⟨d, w, hd, hreads, hstored, hback⟩ := exists_comesBack h.1
    obtain ⟨ds, others, hds, hall, hallStored, hallBack⟩ := exists_allComeBack h.2
    exact ⟨d :: ds, w :: others, by rw [encodeItems, hd, hds]; rfl, .cons hreads hall,
      ⟨hstored, hallStored⟩, .cons hback hallBack⟩

theorem exists_membersComeBack : ∀ {members : List (Value × Value)},
    Value.MembersStorable members → ∃ fields ms, MembersReadBack members fields ms
  | [], _ => ⟨[], [], .nil⟩
  | (.text name, v) :: rest, h => by
    obtain ⟨d, w, hd, hreads, hstored, hback⟩ := exists_comesBack h.1
    obtain ⟨fields, ms, hrest⟩ := exists_membersComeBack h.2.2
    exact ⟨_, _, hrest.cons hd hreads hstored hback h.2.1⟩

end

/-! ### Where nothing is lost -/

theorem readBack_of_losesNothing {v : Value} (h : v.LosesNothing) : v.readBack = v.withoutPayload := by
  cases v with
  | date d => exact congrArg Value.date (IsoText.kept_of_isKept h)
  | _ => rfl

theorem isSingle_withoutPayload {v : Value} (h : IsSingle v) : IsSingle v.withoutPayload := by
  cases v <;> first | exact h.elim | trivial

theorem sameElement_withoutPayload_left (v w : Value) :
    sameElement v.withoutPayload w = sameElement v w := by
  cases v with
  | float x =>
      cases hnan : x.isNaN with
      | false =>
          rw [Value.withoutPayload, hnan]
          rfl
      | true =>
          have hfinite : x.isFinite = false := by
            have hlt := of_decide_eq_true hnan
            exact decide_eq_false (by omega)
          have hwas : Double.nan.isNaN = true := rfl
          have hwasNot : Double.nan.isFinite = false := rfl
          rw [Value.withoutPayload, hnan, if_pos rfl]
          cases w <;> simp [sameElement, Value.equals, Value.numericEquals, Value.numeric?,
            Value.Numeric.equals, Double.equals, Double.equalsInt, hnan, hfinite, hwas, hwasNot]
  | _ => rfl

theorem sameElement_withoutPayload {v w : Value} (hv : IsSingle v) (hw : IsSingle w) :
    sameElement v.withoutPayload w.withoutPayload = sameElement v w := by
  rw [sameElement_withoutPayload_left, sameElement_comm hv (isSingle_withoutPayload hw),
    sameElement_withoutPayload_left, sameElement_comm hw hv]

theorem allLoseNothing_iff {items : List Value} :
    Value.AllLoseNothing items ↔ ∀ v ∈ items, v.LosesNothing := by
  induction items with
  | nil => simp [Value.AllLoseNothing]
  | cons v rest ih => simp [Value.AllLoseNothing, ih]

/-- A set that loses nothing has as many elements as it had. -/
theorem comesBack_set {items elements : List Value} (hs : ∀ v ∈ items, IsSingle v)
    (hl : (Value.set items).LosesNothing) (h : IsSetOf (items.map Value.readBack) elements) :
    ComesBack .whole (.set items) (.set elements) := by
  have hback : items.map Value.readBack = items.map Value.withoutPayload :=
    List.map_congr_left fun v hv => readBack_of_losesNothing (allLoseNothing_iff.1 hl.1 v hv)
  rw [hback] at h
  refine .set (h.perm (fun w hw => ?_) (List.pairwise_map.2 ?_))
  · obtain ⟨v, hv, rfl⟩ := List.mem_map.1 hw
    exact isSingle_withoutPayload (hs v hv)
  · refine hl.2.imp_of_mem fun {v w} hv hw hvw => ?_
    rw [sameElement_withoutPayload (hs v hv) (hs w hw), hvw]

theorem comesBack_single {v w : Value} (hs : IsSingle v) (hl : v.LosesNothing)
    (h : ComesBack .actual v w) : ComesBack .whole v w := by
  have hwhole : ComesBack .whole v v.readBack := by
    rw [readBack_of_losesNothing hl]
    exact .single hs
  cases h with
  | single _ => exact hwhole
  | _ => exact hs.elim

mutual

theorem comesBack_whole : ∀ {v w : Value}, v.IsStorable → v.LosesNothing → ComesBack .actual v w →
    ComesBack .whole v w
  | .null, _, _, hl, h | .bool _, _, _, hl, h | .int _, _, _, hl, h | .float _, _, _, hl, h
  | .text _, _, _, hl, h | .bytes _, _, _, hl, h | .date _, _, _, hl, h =>
    comesBack_single trivial hl h
  | .list _, _, hs, hl, .list h => .list (allComeBack_whole hs hl h)
  | .tuple _, _, hs, hl, .tuple h => .tuple (allComeBack_whole hs hl h)
  | .set _, _, hs, hl, .set h => comesBack_set hs.2 hl h
  | .dict _, _, hs, hl, .dict h => .dict (membersComeBack_whole hs.1 hl h)

theorem allComeBack_whole : ∀ {items others : List Value}, Value.AllStorable items →
    Value.AllLoseNothing items → AllComeBack .actual items others → AllComeBack .whole items others
  | [], _, _, _, .nil => .nil
  | _ :: _, _, hs, hl, .cons h hrest =>
    .cons (comesBack_whole hs.1 hl.1 h) (allComeBack_whole hs.2 hl.2 hrest)

theorem membersComeBack_whole : ∀ {members others : List (Value × Value)},
    Value.MembersStorable members → Value.MembersLoseNothing members →
      MembersComeBack .actual members others → MembersComeBack .whole members others
  | [], _, _, _, .nil => .nil
  | _ :: _, _, hs, hl, .cons h hrest =>
    .cons (comesBack_whole hs.1 hl.1 h) (membersComeBack_whole hs.2.2 hl.2 hrest)

end

end Document
end RecordStore
