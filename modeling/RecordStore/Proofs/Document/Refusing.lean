import RecordStore.Proofs.Document.Restoring

/-!
What cannot be stored is refused, wherever in a value it is: something that is not data, or a member of a
mapping whose name is not text. So a value is refused for its data, or comes back.
-/

namespace RecordStore

open Document

/-! ### What is refused -/

namespace Value

/-- Something that is not data. -/
def IsUnsupported : Value → Prop
  | .ellipsis | .descriptor _ | .keyRange _ | .bare _ | .keyed _ _ | .callable _ => True
  | _ => False

/-- Somewhere in a value is something that is not data, or a member whose name is not text. -/
inductive HoldsUnstorable : Value → Prop
  | unsupported {v : Value} : v.IsUnsupported → HoldsUnstorable v
  | list {items : List Value} {v : Value} : v ∈ items → HoldsUnstorable v → HoldsUnstorable (.list items)
  | tuple {items : List Value} {v : Value} :
      v ∈ items → HoldsUnstorable v → HoldsUnstorable (.tuple items)
  | set {items : List Value} {v : Value} : v ∈ items → HoldsUnstorable v → HoldsUnstorable (.set items)
  | member {members : List (Value × Value)} {name v : Value} :
      (name, v) ∈ members → HoldsUnstorable v → HoldsUnstorable (.dict members)
  | name {members : List (Value × Value)} {name v : Value} :
      (name, v) ∈ members → (∀ s, name ≠ .text s) → HoldsUnstorable (.dict members)

end Value

namespace Document

theorem exists_encode_of_mem {items : List Value} {ds : List Document} (h : encodeItems items = .ok ds)
    {v : Value} (hv : v ∈ items) : ∃ d, encode v = .ok d := by
  induction items generalizing ds with
  | nil => cases hv
  | cons w rest ih =>
      obtain ⟨d, hd, h⟩ := bind_eq_ok_iff.1 h
      obtain ⟨ds', hds, _⟩ := bind_eq_ok_iff.1 h
      rcases List.mem_cons.1 hv with rfl | hv
      · exact ⟨d, hd⟩
      · exact ih hds hv

/-- What has a document holds nothing that cannot be stored. -/
theorem not_encode_of_holdsUnstorable {v : Value} (h : v.HoldsUnstorable) : ¬∃ d, encode v = .ok d := by
  induction h with
  | unsupported hv =>
      rintro ⟨d, hd⟩
      unfold Value.IsUnsupported at hv
      split at hv
      all_goals first | exact hv | cases hd
  | list hv _ ih | tuple hv _ ih =>
      rintro ⟨d, hd⟩
      obtain ⟨ds, hds, _⟩ := map_eq_ok_iff.1 hd
      exact ih (exists_encode_of_mem hds hv)
  | set hv _ ih =>
      rintro ⟨d, hd⟩
      obtain ⟨ds, hds, _⟩ := map_eq_ok_iff.1 hd
      rw [sortByLiteral_encode, Reader.sequence_map_encode] at hds
      exact ih (exists_encode_of_mem hds ((sortByLiteral_perm _).mem_iff.2 hv))
  | member hm _ ih => exact fun hd => ih (exists_encode_dict_iff.1 hd _ hm).2
  | name hm hname =>
      intro hd
      obtain ⟨s, hs⟩ := (exists_encode_dict_iff.1 hd _ hm).1
      exact hname s hs

/-- A part fails only for the data that it is given. -/
def FailsForData {α : Type} (r : Except StoreFault α) : Prop := ∀ f, r = .error f → f.name = .data

namespace FailsForData

variable {α β : Type}

theorem ok (a : α) : FailsForData (.ok a) := nofun

theorem bind {r : Except StoreFault α} {g : α → Except StoreFault β} (hr : FailsForData r)
    (hg : ∀ a, FailsForData (g a)) : FailsForData (r >>= g) := by
  cases r with
  | error f =>
      intro f' hf
      cases hf
      exact hr f rfl
  | ok a => exact hg a

theorem map {r : Except StoreFault α} (hr : FailsForData r) (g : α → β) : FailsForData (r.map g) := by
  cases r with
  | error f =>
      intro f' hf
      cases hf
      exact hr f rfl
  | ok a => exact ok _

theorem sequence {rs : List (Except StoreFault α)} (h : ∀ r ∈ rs, FailsForData r) :
    FailsForData (Document.sequence rs) := by
  induction rs with
  | nil => exact ok _
  | cons r rest ih =>
      obtain ⟨hr, hrest⟩ := List.forall_mem_cons.1 h
      exact hr.bind fun a => (ih hrest).bind fun as => ok _

end FailsForData

mutual

theorem failsForData_checkNames : ∀ v : Value, FailsForData (checkNames v)
  | .list items => failsForData_checkItems items
  | .tuple items => failsForData_checkItems items
  | .dict members => failsForData_checkMembers members
  | .null | .bool _ | .int _ | .float _ | .text _ | .bytes _ | .date _ | .set _ | .ellipsis
  | .descriptor _ | .keyRange _ | .bare _ | .keyed _ _ | .callable _ => .ok ()

theorem failsForData_checkItems : ∀ items : List Value, FailsForData (checkItems items)
  | [] => .ok ()
  | v :: rest => (failsForData_checkNames v).bind fun _ => failsForData_checkItems rest

theorem failsForData_checkMembers : ∀ members : List (Value × Value),
    FailsForData (checkMembers members)
  | [] => .ok ()
  | (.text _, v) :: rest => (failsForData_checkNames v).bind fun _ => failsForData_checkMembers rest
  | (.null, _) :: _ | (.bool _, _) :: _ | (.int _, _) :: _ | (.float _, _) :: _ | (.bytes _, _) :: _
  | (.date _, _) :: _ | (.list _, _) :: _ | (.tuple _, _) :: _ | (.set _, _) :: _ | (.dict _, _) :: _
  | (.ellipsis, _) :: _ | (.descriptor _, _) :: _ | (.keyRange _, _) :: _ | (.bare _, _) :: _
  | (.keyed _ _, _) :: _ | (.callable _, _) :: _ => by
    rintro f ⟨⟩
    rfl

end

mutual

theorem failsForData_encode : ∀ v : Value, FailsForData (encode v)
  | .null | .bool _ | .float _ | .text _ | .bytes _ | .date _ => .ok _
  | .int n => by
    rw [encode]
    split
    · rintro f ⟨⟩
      rfl
    · exact .ok _
  | .list items => (failsForData_encodeItems items).map _
  | .tuple items => (failsForData_encodeItems items).map _
  | .set items => by
    refine .map (.sequence fun r hr => ?_) _
    obtain ⟨s, hs⟩ := sortByLiteral_mem hr
    exact failsForData_encodeElements items s r hs
  | .dict members => (failsForData_encodeMembers members).map _
  | .ellipsis | .descriptor _ | .keyRange _ | .bare _ | .keyed _ _ | .callable _ => by
    rintro f ⟨⟩
    rfl

theorem failsForData_encodeItems : ∀ items : List Value, FailsForData (encodeItems items)
  | [] => .ok _
  | v :: rest => (failsForData_encode v).bind fun _ => (failsForData_encodeItems rest).bind fun _ => .ok _

theorem failsForData_encodeElements : ∀ (items : List Value) (s : String)
    (r : Except StoreFault Document), (s, r) ∈ encodeElements items → FailsForData r
  | [], _, _, h => nomatch h
  | v :: rest, s, r, h => by
    rcases List.mem_cons.1 h with h | h
    · cases h
      exact failsForData_encode v
    · exact failsForData_encodeElements rest s r h

theorem failsForData_encodeMembers : ∀ members : List (Value × Value),
    FailsForData (encodeMembers members)
  | [] => .ok _
  | (.text _, v) :: rest =>
    (failsForData_encode v).bind fun _ => (failsForData_encodeMembers rest).bind fun _ => .ok _
  | (.null, _) :: _ | (.bool _, _) :: _ | (.int _, _) :: _ | (.float _, _) :: _ | (.bytes _, _) :: _
  | (.date _, _) :: _ | (.list _, _) :: _ | (.tuple _, _) :: _ | (.set _, _) :: _ | (.dict _, _) :: _
  | (.ellipsis, _) :: _ | (.descriptor _, _) :: _ | (.keyRange _, _) :: _ | (.bare _, _) :: _
  | (.keyed _ _, _) :: _ | (.callable _, _) :: _ => by
    rintro f ⟨⟩
    rfl

end

end Document

/-! ### Storing any value -/

namespace Value

theorem failsForData_dumps (v : Value) : FailsForData v.dumps :=
  ((failsForData_checkNames v).bind fun _ => failsForData_encode v).map _

theorem exists_fault_of_holdsUnstorable {v : Value} (h : v.HoldsUnstorable) :
    ∃ f, v.dumps = .error f ∧ f.name = .data := by
  cases hdumps : v.dumps with
  | error f => exact ⟨f, rfl, failsForData_dumps v f hdumps⟩
  | ok s =>
      obtain ⟨d, hd, _⟩ := exists_encode_of_dumps hdumps
      exact absurd ⟨d, hd⟩ (not_encode_of_holdsUnstorable h)

theorem exists_loads_of_isStorable {v : Value} (h : v.IsStorable) :
    ∃ s w, v.dumps = .ok s ∧ loads s = .ok w ∧ ComesBack .actual v w := by
  obtain ⟨d, w, hd, hreads, _, hback⟩ := exists_comesBack h
  exact ⟨_, w, dumps_of_encode hd, loads_of_reads hreads, hback⟩

/-- Storing a value and reading it yields the value, with lists for tuples, up to offsets that are shorter
than a second and elements of a set that are not numbers; and a value that holds anything that cannot be
stored is refused for its data. -/
theorem comes_back_or_is_refused (v : Value) :
    (v.IsStorable → ∃ s w, v.dumps = .ok s ∧ loads s = .ok w ∧ ComesBack .actual v w ∧
      (v.LosesNothing → ComesBack .whole v w)) ∧
    (v.HoldsUnstorable → ∃ f, v.dumps = .error f ∧ f.name = .data) := by
  refine ⟨fun h => ?_, exists_fault_of_holdsUnstorable⟩
  obtain ⟨s, w, hs, hw, hback⟩ := exists_loads_of_isStorable h
  exact ⟨s, w, hs, hw, hback, fun hl => comesBack_whole h hl hback⟩

/-- A record with a pair, a set, and a mapping that has the name of a tag beside another. -/
def visit : Value :=
  .ofFields [("pair", .tuple [.int 1, .float .nan, .bool true]), ("tags", .set [.text "a", .bytes [0]]),
    ("tagged", .ofFields [("$set", .null), ("", .list [])])]

theorem isStorable_visit : visit.IsStorable ∧ visit.LosesNothing := by
  have hdigits : (Decimal.digitsOf (Int.natAbs 1)).length ≤ maxDigits := by decide
  have hsingle : ∀ v ∈ [Value.text "a", .bytes [0]], IsSingle v := by simp [IsSingle]
  have hdistinct : [Value.text "a", .bytes [0]].Pairwise fun v w => sameElement v w = false := by
    decide
  refine ⟨⟨⟨⟨hdigits, trivial, trivial, trivial⟩, rfl, ⟨⟨trivial, trivial, trivial⟩, hsingle⟩, rfl,
    ⟨⟨trivial, rfl, trivial, rfl, trivial⟩, ?_⟩, rfl, trivial⟩, ?_⟩,
    ⟨trivial, trivial, trivial, trivial⟩, ⟨⟨trivial, trivial, trivial⟩, hdistinct⟩,
      ⟨trivial, trivial, trivial⟩, trivial⟩
  · rintro name v ⟨⟩
  · rintro name v ⟨⟩

/-- The record comes back whole, and is refused with a function in its pair. -/
theorem comes_back_or_is_refused_visit :
    (∃ s w, visit.dumps = .ok s ∧ loads s = .ok w ∧ ComesBack .whole visit w) ∧
    ∃ f, (Value.ofFields [("pair", .tuple [.int 1, .callable default])]).dumps = .error f ∧
      f.name = .data := by
  refine ⟨?_, ?_⟩
  · obtain ⟨s, w, hs, hw, _, hwhole⟩ := (comes_back_or_is_refused visit).1 isStorable_visit.1
    exact ⟨s, w, hs, hw, hwhole isStorable_visit.2⟩
  · have hcallable : HoldsUnstorable (.callable default) := .unsupported trivial
    refine (comes_back_or_is_refused _).2 (.member List.mem_cons_self (.tuple ?_ hcallable))
    exact List.mem_cons_of_mem _ List.mem_cons_self

/-- The set of two things that are not numbers, which are not equal. -/
def twoNans : Value := .ofElements [.float .nan, .float .nan]

/-- Of the two one comes back. -/
theorem not_comesBack_whole_twoNans : ¬∀ v : Value, v.IsStorable →
    ∃ s w, v.dumps = .ok s ∧ loads s = .ok w ∧ ComesBack .whole v w := by
  intro h
  have hset : twoNans = .set [.float .nan, .float .nan] := rfl
  have hstorable : twoNans.IsStorable := by
    rw [hset]
    exact ⟨⟨trivial, trivial, trivial⟩, by simp [IsSingle]⟩
  obtain ⟨s, w, hs, hw, hwhole⟩ := h twoNans hstorable
  obtain ⟨s', w', hs', hw', hactual⟩ := exists_loads_of_isStorable hstorable
  rw [hs] at hs'
  cases hs'
  rw [hw] at hw'
  cases hw'
  rw [hset] at hwhole hactual
  cases hwhole with
  | single hsingle => exact hsingle
  | set hperm =>
      cases hactual with
      | single hsingle => exact hsingle
      | set hsetOf =>
          obtain ⟨a, b, rfl⟩ := List.length_eq_two.1 hperm.length_eq
          have hnan : ∀ v ∈ [a, b], v = .float .nan := by
            intro v hv
            have hback : (Value.float .nan).readBack = .float .nan := rfl
            have hmem := hsetOf.mem v hv
            simpa [Return.actual, hback] using hmem
          have hdiffer := List.rel_of_pairwise_cons hsetOf.canonical.distinct (List.mem_singleton_self b)
          rw [hnan a (by simp), hnan b (by simp)] at hdiffer
          cases hdiffer

end Value
end RecordStore
