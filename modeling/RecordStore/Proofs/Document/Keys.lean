import RecordStore.Proofs.Document.Returns
import RecordStore.Proofs.Key.Order
import RecordStore.Proofs.Key.Decoding

/-!
Keys of values that come back from storage. A key without dates comes back as the same key; and where a
key path leads to something in a value, in what comes back of the value it leads to what comes back of
that, or to nothing, and then no key can be written there either.
-/

namespace RecordStore

/-! ### Keys without dates -/

namespace Key

mutual

/-- No date stands in a key, at any depth of its arrays. -/
def IsDateFree : Key → Prop
  | date _ => False
  | array items => AllDateFree items
  | _ => True

def AllDateFree : List Key → Prop
  | [] => True
  | k :: rest => IsDateFree k ∧ AllDateFree rest

end

mutual

theorem isDateFree_of_convert : ∀ {v : Value} {k : Key}, convert v = .ok k →
    (k.IsDateFree ↔ v.IsDateFree)
  | .int n, _, h => by
    rw [convert] at h
    split at h
    · cases h
      exact Iff.rfl
    · cases h
  | .list items, _, h => by
    obtain ⟨ks, hks, rfl⟩ := map_eq_ok_iff.1 h
    exact allDateFree_of_convertAll hks
  | .tuple items, _, h => by
    obtain ⟨ks, hks, rfl⟩ := map_eq_ok_iff.1 h
    exact allDateFree_of_convertAll hks
  | .float _, _, h | .date _, _, h | .text _, _, h | .bytes _, _, h | .null, _, h | .bool _, _, h
  | .set _, _, h | .dict _, _, h | .ellipsis, _, h | .descriptor _, _, h | .keyRange _, _, h
  | .bare _, _, h | .keyed _ _, _, h | .callable _, _, h => by
    cases h
    exact Iff.rfl

theorem allDateFree_of_convertAll : ∀ {items : List Value} {ks : List Key},
    convertAll items = .ok ks → (AllDateFree ks ↔ Value.AllDateFree items)
  | [], _, h => by
    cases h
    exact Iff.rfl
  | v :: rest, _, h => by
    obtain ⟨k, hk, h⟩ := bind_eq_ok_iff.1 h
    obtain ⟨ks, hks, h⟩ := bind_eq_ok_iff.1 h
    cases h
    exact and_congr (isDateFree_of_convert hk) (allDateFree_of_convertAll hks)

end

mutual

/-- A key that equals one without dates has none. -/
theorem isDateFree_of_compare : ∀ {k l : Key}, k.compare l = .eq → l.IsDateFree → k.IsDateFree
  | .date _, l, h, hl => by
    cases l with
    | date _ => exact hl
    | _ => cases h
  | .array ks, l, h, hl => by
    cases l with
    | array ls => exact allDateFree_of_compareAll h hl
    | _ => cases h
  | .number _, _, _, _ | .text _, _, _, _ | .bytes _, _, _, _ => trivial

theorem allDateFree_of_compareAll : ∀ {ks ls : List Key}, compareAll ks ls = .eq →
    AllDateFree ls → AllDateFree ks
  | [], _, _, _ => trivial
  | k :: ks, [], h, _ => nomatch h
  | k :: ks, l :: ls, h, hl => by
    obtain ⟨hk, hks⟩ := Ordering.then_eq_eq.1 h
    exact ⟨isDateFree_of_compare hk hl.1, allDateFree_of_compareAll hks hl.2⟩

end

end Key

/-- A value with the encoded key of one without dates has none. -/
theorem Value.isDateFree_of_encodeKey {v w : Value} {b : Bytes} (hv : v.encodeKey = .ok b)
    (hw : w.encodeKey = .ok b) (hdates : w.IsDateFree) : v.IsDateFree := by
  obtain ⟨k, hk, rfl⟩ := encodeKey_eq_ok_iff.1 hv
  obtain ⟨l, hl, hencode⟩ := encodeKey_eq_ok_iff.1 hw
  have heq := Key.compare_encode (Key.isOrdered_of_ofValue hk) (Key.isOrdered_of_ofValue hl)
  rw [hencode, Bytes.compare_self] at heq
  have hl' := (Key.isDateFree_of_convert (Key.ofValue_eq_ok_iff.1 hl).2).2 hdates
  exact (Key.isDateFree_of_convert (Key.ofValue_eq_ok_iff.1 hk).2).1
    (Key.isDateFree_of_compare heq.symm hl')

namespace Key

open Value (Returns AllReturn)

/-- An array is a key when it is not too deep and its items are keys. -/
theorem convert_list_iff {items : List Value} {depth : Nat} {k : Key} :
    check depth (.list items) = .ok () ∧ convert (.list items) = .ok k ↔
      depth ≤ maxDepth ∧ checkAll (depth + 1) items = .ok () ∧
        ∃ ks, convertAll items = .ok ks ∧ array ks = k := by
  rw [check, convert, map_eq_ok_iff]
  split
  · next hdeep => exact ⟨fun h => (nomatch h.1), fun h => absurd h.1 (Nat.not_le.2 hdeep)⟩
  · next hdepth => exact ⟨fun h => ⟨Nat.not_lt.1 hdepth, h⟩, fun h => h.2⟩

mutual

/-- What comes back of a key without dates is the same key. -/
theorem convert_of_returns : ∀ {v w : Value} {depth : Nat} {k : Key}, v.Returns w → v.IsDateFree →
    check depth v = .ok () → convert v = .ok k → check depth w = .ok () ∧ convert w = .ok k
  | .int n, _, _, _, h, _, hc, hk => by
    obtain rfl := h
    exact ⟨hc, hk⟩
  | .float x, _, _, _, h, _, hc, hk => by
    have hnumber : x.isNaN = false := by
      rw [check] at hc
      split at hc
      · cases hc
      · next hnot => exact Bool.not_eq_true _ ▸ hnot
    rw [h hnumber]
    exact ⟨hc, hk⟩
  | .text s, _, _, _, h, _, hc, hk => by
    obtain rfl := h
    exact ⟨hc, hk⟩
  | .bytes b, _, _, _, h, _, hc, hk => by
    obtain rfl := h
    exact ⟨hc, hk⟩
  | .list items, _, depth, _, h, hd, hc, hk => by
    obtain ⟨others, rfl, hothers⟩ := h
    obtain ⟨hdepth, hcs, ks, hks, rfl⟩ := convert_list_iff.1 ⟨hc, hk⟩
    obtain ⟨hcothers, hkothers⟩ := convertAll_of_returns hothers hd hcs hks
    exact convert_list_iff.2 ⟨hdepth, hcothers, ks, hkothers, rfl⟩
  | .tuple items, _, depth, _, h, hd, hc, hk => by
    obtain ⟨others, rfl, hothers⟩ := h
    obtain ⟨hdepth, hcs, ks, hks, rfl⟩ := convert_list_iff.1 ⟨hc, hk⟩
    obtain ⟨hcothers, hkothers⟩ := convertAll_of_returns hothers hd hcs hks
    exact convert_list_iff.2 ⟨hdepth, hcothers, ks, hkothers, rfl⟩
  | .date _, _, _, _, _, hd, _, _ => hd.elim
  | .null, _, _, _, _, _, hc, _ | .bool _, _, _, _, _, _, hc, _ | .set _, _, _, _, _, _, hc, _
  | .dict _, _, _, _, _, _, hc, _ | .ellipsis, _, _, _, _, _, hc, _
  | .descriptor _, _, _, _, _, _, hc, _ | .keyRange _, _, _, _, _, _, hc, _
  | .bare _, _, _, _, _, _, hc, _ | .keyed _ _, _, _, _, _, _, hc, _
  | .callable _, _, _, _, _, _, hc, _ => nomatch hc

theorem convertAll_of_returns : ∀ {items others : List Value} {depth : Nat} {ks : List Key},
    AllReturn items others → Value.AllDateFree items → checkAll depth items = .ok () →
      convertAll items = .ok ks → checkAll depth others = .ok () ∧ convertAll others = .ok ks
  | [], _, _, _, h, _, hc, hk => by
    obtain rfl := h
    exact ⟨hc, hk⟩
  | v :: rest, _, depth, _, h, hd, hc, hk => by
    obtain ⟨w, more, rfl, hw, hmore⟩ := h
    obtain ⟨_, hcv, hcs⟩ := bind_eq_ok_iff.1 hc
    obtain ⟨k, hkv, hk⟩ := bind_eq_ok_iff.1 hk
    obtain ⟨ks, hks, hk⟩ := bind_eq_ok_iff.1 hk
    cases hk
    obtain ⟨hcw, hkw⟩ := convert_of_returns hw hd.1 hcv hkv
    obtain ⟨hcmore, hkmore⟩ := convertAll_of_returns hmore hd.2 hcs hks
    exact ⟨bind_eq_ok_iff.2 ⟨_, hcw, hcmore⟩,
      bind_eq_ok_iff.2 ⟨k, hkw, bind_eq_ok_iff.2 ⟨ks, hkmore, rfl⟩⟩⟩

end

end Key

theorem Value.encodeKey_of_returns {v w : Value} {b : Bytes} (h : v.Returns w) (hd : v.IsDateFree)
    (hb : v.encodeKey = .ok b) : w.encodeKey = .ok b := by
  obtain ⟨k, hk, hencode⟩ := encodeKey_eq_ok_iff.1 hb
  obtain ⟨hcheck, hconvert⟩ := Key.ofValue_eq_ok_iff.1 hk
  exact encodeKey_eq_ok_iff.2
    ⟨k, Key.ofValue_eq_ok_iff.2 (Key.convert_of_returns h hd hcheck hconvert), hencode⟩

theorem Value.isValidKey_of_encodeKey {v : Value} {b : Bytes} (h : v.encodeKey = .ok b) :
    v.isValidKey = true := by
  obtain ⟨_, hk, _⟩ := encodeKey_eq_ok_iff.1 h
  rw [isValidKey, (Key.ofValue_eq_ok_iff.1 hk).1]
  rfl

/-! ### Key paths -/

namespace KeyPath

variable {v w found : Value}

theorem follow_of_returns {segments : List String} (h : v.Returns w)
    (hfound : follow segments v = some found) :
    (∃ other, follow segments w = some other ∧ found.Returns other) ∨
      follow segments w = none ∧ ∀ key, place key segments w = none := by
  induction segments generalizing v w with
  | nil =>
      cases hfound
      exact .inl ⟨w, rfl, h⟩
  | cons s rest ih =>
      obtain ⟨inner, hinner, hrest⟩ := Option.bind_eq_some_iff.1 hfound
      cases v with
      | dict members =>
          rcases h with ⟨others, rfl, hothers⟩ | hnot
          · obtain ⟨_, other, hname, hother, hreturns⟩ :=
              Document.Reader.membersReturn_iff.1 hothers _ (Value.mem_of_member? hinner)
            cases hname
            have hfollow : follow (s :: rest) (.dict others) = follow rest other := by
              rw [follow, Value.field?, hother, Option.bind_some]
            rcases ih hreturns hrest with ⟨found', hfound', h'⟩ | ⟨hnone, hplace⟩
            · exact .inl ⟨found', hfollow.trans hfound', h'⟩
            · refine .inr ⟨hfollow.trans hnone, fun key => ?_⟩
              cases rest with
              | nil => cases hnone
              | cons t rest =>
                  rw [place, hother, Option.getD_some, hplace key]
                  · rfl
                  · exact List.cons_ne_nil _ _
          · refine .inr ⟨?_, fun key => ?_⟩
            · cases w with
              | dict others => exact absurd rfl (hnot others)
              | _ => rfl
            · cases w with
              | dict others => exact absurd rfl (hnot others)
              | _ => cases rest <;> rfl
      | _ => cases hinner

theorem findSingle_of_returns {p : String} (h : v.Returns w) (hfound : findSingle p v = some found) :
    (∃ other, findSingle p w = some other ∧ found.Returns other) ∨
      findSingle p w = none ∧ ∀ key, place key (segments p) w = none := by
  rw [findSingle] at hfound ⊢
  split at hfound
  · next hempty =>
    cases hfound
    exact .inl ⟨w, if_pos hempty, h⟩
  · next hpath =>
    rw [if_neg hpath]
    exact follow_of_returns h hfound

/-- What single paths lead to, they all lead to in what comes back, or one of them to nothing. -/
theorem mapM_findSingle_of_returns {ps : List String} {founds : List Value} (h : v.Returns w)
    (hfounds : (ps.mapM fun p => findSingle p v) = some founds) :
    (∃ others, (ps.mapM fun p => findSingle p w) = some others ∧ Value.AllReturn founds others) ∨
      (ps.mapM fun p => findSingle p w) = none := by
  induction ps generalizing founds with
  | nil =>
      cases hfounds
      exact .inl ⟨[], rfl, rfl⟩
  | cons p rest ih =>
      rw [List.mapM_cons] at hfounds ⊢
      obtain ⟨f, hf, hfounds⟩ := Option.bind_eq_some_iff.1 hfounds
      obtain ⟨fs, hfs, hfounds⟩ := Option.bind_eq_some_iff.1 hfounds
      cases hfounds
      rcases findSingle_of_returns h hf with ⟨g, hg, hreturns⟩ | ⟨hnone, _⟩
      · rw [hg]
        rcases ih hfs with ⟨gs, hgs, hall⟩ | hnone
        · rw [hgs]
          exact .inl ⟨g :: gs, rfl, g, gs, rfl, hreturns, hall⟩
        · rw [hnone]
          exact .inr rfl
      · rw [hnone]
        exact .inr rfl

/-- Where a key path leads to something, it leads in what comes back to what comes back of that, or to
nothing, and then a single path is a way along which nothing can be put. -/
theorem find?_of_returns {path : KeyPath} (h : v.Returns w) (hfound : path.find? v = some found) :
    (∃ other, path.find? w = some other ∧ found.Returns other) ∨
      path.find? w = none ∧ ∀ p, path = .single p → ∀ key, place key (segments p) w = none := by
  cases path with
  | single p =>
      refine (findSingle_of_returns h hfound).imp_right fun ⟨hnone, hplace⟩ => ⟨hnone, ?_⟩
      rintro _ ⟨⟩
      exact hplace
  | compound ps =>
      obtain ⟨founds, hfounds, rfl⟩ := Option.map_eq_some_iff.1 hfound
      rcases mapM_findSingle_of_returns h hfounds with ⟨others, hothers, hall⟩ | hnone
      · exact .inl ⟨.list others, by rw [find?, hothers]; rfl, others, rfl, hall⟩
      · exact .inr ⟨by rw [find?, hnone]; rfl, nofun⟩

end KeyPath
end RecordStore
