import RecordStore.Proofs.Calendar.IsoText
import RecordStore.Proofs.Document.Numbers
import RecordStore.Proofs.Document.Sets
import RecordStore.Proofs.Results

/-!
Stored values: what reading a document can yield. Mappings have text names, each once, and none of
them has the form of a tagged object; sets are in canonical form; and dates, numbers and texts are
such that they outlive being written.
-/

namespace RecordStore

open Document

/-- A name that marks an object as something other than a mapping. -/
def Document.IsTag (name : String) : Prop :=
  name = dateTag ∨ name = bytesTag ∨ name = setTag

namespace Value

mutual

/-- A value in the form in which it is read back. -/
def IsStored : Value → Prop
  | .null | .bool _ | .text _ | .bytes _ => True
  | .int n => (Decimal.digitsOf n.natAbs).length ≤ maxDigits
  | .float x => x.isNaN = true → x = .nan
  | .date d => ∀ o ∈ d.offset, IsoText.IsKeptOffset o
  | .list items => AllStored items
  | .set items => AllStored items ∧ IsCanonical items
  | .dict members => MembersStored members ∧ ∀ name v, members = [(.text name, v)] → ¬IsTag name
  | _ => False

def AllStored : List Value → Prop
  | [] => True
  | v :: rest => IsStored v ∧ AllStored rest

/-- The names of members are texts, each of them once. -/
def MembersStored : List (Value × Value) → Prop
  | [] => True
  | (.text name, v) :: rest => IsStored v ∧ member? name rest = none ∧ MembersStored rest
  | _ => False

end

theorem allStored_iff {items : List Value} : AllStored items ↔ ∀ v ∈ items, v.IsStored := by
  induction items with
  | nil => simp [AllStored]
  | cons v rest ih => simp [AllStored, ih]

/-- Only single things among the stored values can be elements of sets. -/
theorem isSingle_of_unhashable? {v : Value} (hv : v.IsStored) (h : v.unhashable? = none) :
    IsSingle v := by
  cases v <;> trivial

/-! ### Members -/

theorem eq_text_of_equals {v : Value} {s : String} (h : v.equals (.text s) = true) : v = .text s := by
  cases v with
  | text t => exact congrArg Value.text (beq_iff_eq.1 h)
  | _ => simp [Value.equals, Value.numericEquals, Value.numeric?] at h

theorem mem_of_member? {name : String} {v : Value} {members : List (Value × Value)}
    (h : member? name members = some v) : (.text name, v) ∈ members := by
  fun_induction member? name members with
  | case1 => cases h
  | case2 => cases h; exact List.mem_cons_self
  | case3 _ _ _ _ ih => exact List.mem_cons_of_mem _ (ih h)
  | case4 _ _ _ ih => exact List.mem_cons_of_mem _ (ih h)

theorem member?_setMember (name other : String) (value : Value) (members : List (Value × Value)) :
    member? other (setMember name value members) =
      if name = other then some value else member? other members := by
  induction members with
  | nil => rfl
  | cons m rest ih =>
      obtain ⟨k, v⟩ := m
      cases k with
      | text s =>
          rw [setMember]
          by_cases hs : s = name
          · subst hs
            rw [if_pos rfl, member?, member?]
            split <;> rfl
          · rw [if_neg hs, member?, member?, ih]
            split
            · next ho => rw [if_neg (by rw [← ho]; exact fun h => hs h.symm)]
            · rfl
      | _ => exact ih

/-- What is inserted under one key is under no name that does not equal it. -/
theorem member?_insertMember_of_ne {name : String} {key : Value} (h : (text name).equals key = false)
    (v : Value) (members : List (Value × Value)) :
    member? name (insertMember key v members) = member? name members := by
  have hkey (w : Value) (rest : List (Value × Value)) {k : Value} (hk : k ≠ text name) :
      member? name ((k, w) :: rest) = member? name rest := by
    cases k with
    | text s => exact if_neg fun hs => hk (congrArg text hs)
    | _ => rfl
  have hne {k : Value} (hk : k.equals key = true) : k ≠ text name := by
    rintro rfl
    rw [h] at hk
    cases hk
  fun_induction insertMember key v members with
  | case1 =>
      refine hkey v [] ?_
      rintro rfl
      rw [equals, beq_self_eq_true] at h
      cases h
  | case2 k w rest hk => rw [hkey _ _ (hne hk), hkey _ _ (hne hk)]
  | case3 k w rest _ ih =>
      cases k with
      | text s => rw [member?, member?, ih]
      | _ => exact ih

theorem membersStored_setMember {name : String} {value : Value} {members : List (Value × Value)}
    (hv : value.IsStored) (hm : MembersStored members) :
    MembersStored (setMember name value members) := by
  induction members with
  | nil => exact ⟨hv, rfl, trivial⟩
  | cons m rest ih =>
      obtain ⟨k, v⟩ := m
      cases k with
      | text s =>
          obtain ⟨hv', hs, hrest⟩ := hm
          rw [setMember]
          by_cases heq : s = name
          · rw [if_pos heq]
            exact ⟨hv, hs, hrest⟩
          · rw [if_neg heq]
            refine ⟨hv', ?_, ih hrest⟩
            rw [member?_setMember, if_neg (fun h => heq h.symm), hs]
      | _ => exact hm.elim

/-- A name that is not there yet is put at the end. -/
theorem setMember_of_member? {name : String} {members : List (Value × Value)} (value : Value)
    (hm : MembersStored members) (h : member? name members = none) :
    setMember name value members = members ++ [(.text name, value)] := by
  induction members with
  | nil => rfl
  | cons m rest ih =>
      obtain ⟨k, v⟩ := m
      cases k with
      | text s =>
          rw [member?] at h
          by_cases heq : s = name
          · rw [if_pos heq] at h
            cases h
          · rw [if_neg heq] at h
            rw [setMember, if_neg heq, ih hm.2.2 h]
            rfl
      | _ => exact hm.elim

theorem membersStored_foldl {fields : List (String × Value)} (kept : List (Value × Value))
    (hf : ∀ f ∈ fields, f.2.IsStored) (hk : MembersStored kept) :
    MembersStored (fields.foldl (fun kept (name, v) => setMember name v kept) kept) := by
  induction fields generalizing kept with
  | nil => exact hk
  | cons f rest ih =>
      exact ih _ (fun g hg => hf g (List.mem_cons_of_mem _ hg))
        (membersStored_setMember (hf f List.mem_cons_self) hk)

end Value

namespace Document

open Value (IsStored AllStored MembersStored allStored_iff)

/-! ### Closing an object -/

theorem isStored_of_setOfItems {items : List Value} {v : Value} (hi : ∀ v ∈ items, v.IsStored)
    (h : setOfItems items = .ok v) : v.IsStored := by
  have hsingle : ∀ v ∈ items, IsSingle v := by
    simp only [setOfItems] at h
    split at h
    · cases h
    · next hnone =>
      exact fun v hv => Value.isSingle_of_unhashable? (hi v hv)
        (List.findSome?_eq_none_iff.1 hnone v hv)
  obtain ⟨elements, hset, hcanonical, hmem⟩ := isCanonical_of_setOfItems hsingle
  rw [hset] at h
  cases h
  exact ⟨allStored_iff.2 fun v hv => hi v (hmem v hv), hcanonical⟩

theorem keys_isStored {members : List (Value × Value)} (h : MembersStored members) :
    ∀ v ∈ members.map Prod.fst, v.IsStored := by
  induction members with
  | nil => exact nofun
  | cons m rest ih =>
      obtain ⟨k, w⟩ := m
      cases k with
      | text s =>
          rw [List.map_cons, List.forall_mem_cons]
          exact ⟨trivial, ih h.2.2⟩
      | _ => exact h.elim

theorem isStored_ofByte (b : UInt8) : (Value.int b.toNat).IsStored := by
  have hlt : b.toNat < 10 ^ 3 := b.toNat_lt.trans (by decide)
  have hlength := (Decimal.length_digitsOf_le_iff (n := b.toNat) (k := 3) (by decide)).2 hlt
  exact hlength.trans (by decide)

theorem isStored_of_setOf {v w : Value} (hv : v.IsStored) (h : setOf v = .ok w) : w.IsStored := by
  cases v with
  | list items => exact isStored_of_setOfItems (allStored_iff.1 hv) h
  | set items =>
      cases h
      exact hv
  | text s =>
      refine isStored_of_setOfItems (fun v hv => ?_) h
      obtain ⟨c, _, rfl⟩ := List.mem_map.1 hv
      trivial
  | bytes b =>
      refine isStored_of_setOfItems (fun v hv => ?_) h
      obtain ⟨n, _, rfl⟩ := List.mem_map.1 hv
      exact isStored_ofByte n
  | dict members => exact isStored_of_setOfItems (keys_isStored hv.1) h
  | tuple items => exact hv.elim
  | _ => cases h

theorem isStored_of_dateOf {v w : Value} (h : dateOf v = .ok w) : w.IsStored := by
  cases v with
  | text s =>
      simp only [dateOf] at h
      split at h
      · next d hd =>
        cases h
        exact IsoText.isKeptOffset_of_read hd
      · cases h
  | _ => cases h

theorem isStored_of_bytesOf {v w : Value} (h : bytesOf v = .ok w) : w.IsStored := by
  have hascii {b : List UInt8} (h : bytesOf.ofAscii b = .ok w) : w.IsStored := by
    rw [bytesOf.ofAscii] at h
    split at h
    · cases h
      trivial
    · cases h
  cases v with
  | text s =>
      simp only [bytesOf] at h
      split at h
      · exact hascii h
      · cases h
  | bytes b => exact hascii h
  | _ => cases h

/-- Closing an object of stored values yields a stored value. -/
theorem isStored_of_close {fields : List (String × Value)} {w : Value}
    (hf : ∀ f ∈ fields, f.2.IsStored) (h : close fields = .ok w) : w.IsStored := by
  have hm := Value.membersStored_foldl [] hf trivial
  simp only [close] at h
  split at h
  · next s v heq =>
    rw [heq] at hm
    split at h
    · exact isStored_of_dateOf h
    split at h
    · exact isStored_of_bytesOf h
    split at h
    · exact isStored_of_setOf hm.1 h
    · next hdate hbytes hset =>
      cases h
      rw [heq]
      refine ⟨hm, ?_⟩
      rintro name v ⟨⟩ (rfl | rfl | rfl)
      · exact hdate rfl
      · exact hbytes rfl
      · exact hset rfl
  · next hne =>
    cases h
    exact ⟨hm, fun name v heq => absurd heq (hne name v)⟩

namespace Reader

/-! ### Reading -/

theorem isDigit_of_mem_wholeDigits {cs : List Char} {c : Char} (h : c ∈ wholeDigits cs) :
    c.isDigit = true := by
  unfold wholeDigits at h
  split at h
  · rw [List.mem_singleton.1 h]
    rfl
  · exact List.all_eq_true.1 List.all_takeWhile c h

theorem isStored_toDouble (d : Decimal) (negative : Bool) :
    (Value.float (d.toDouble negative)).IsStored := by
  obtain ⟨i, hi, h⟩ := Decimal.toDouble_eq_ofIndex d
  intro hnan
  rw [h, Double.isNaN, decide_eq_true_iff,
    Double.index_ofIndex _ (lt_of_le_of_lt hi Double.infinityIndex_lt)] at hnan
  omega

theorem isStored_of_readNumber {cs rest : List Char} {v : Value}
    (h : readNumber cs = .ok (v, rest)) : v.IsStored := by
  simp only [readNumber] at h
  generalize hneg : (cs.head? == some '-') = negative at h
  generalize hbody : (if negative = true then cs.drop 1 else cs) = body at h
  split at h
  · cases h
  next hwhole =>
  split at h
  · cases h
    exact isStored_toDouble _ _
  split at h
  · split at h
    · cases h
    · next hdigits =>
      cases h
      have hlt := Decimal.ofDigits_lt fun c (hc : c ∈ wholeDigits body) => isDigit_of_mem_wholeDigits hc
      have hpos : 0 < (wholeDigits body).length := List.length_pos_iff.2 (by simpa using hwhole)
      have hle := (Decimal.length_digitsOf_le_iff hpos).2 hlt
      have habs : (if negative = true then -(Decimal.ofDigits (wholeDigits body) : Int)
          else Decimal.ofDigits (wholeDigits body)).natAbs = Decimal.ofDigits (wholeDigits body) := by
        split <;> simp
      rw [IsStored, habs]
      exact hle.trans (Nat.not_lt.1 hdigits)
  · cases h
    exact isStored_toDouble _ _

theorem isStored_of_word? {cs rest : List Char} {v : Value} (h : word? cs = some (v, rest)) :
    v.IsStored := by
  obtain ⟨⟨word, w⟩, hw, h⟩ := List.exists_of_findSome?_eq_some h
  simp only at h
  split at h
  · cases h
    simp only [words, List.mem_cons, Prod.mk.injEq, List.not_mem_nil, or_false] at hw
    rcases hw with ⟨_, rfl⟩ | ⟨_, rfl⟩ | ⟨_, rfl⟩ | ⟨_, rfl⟩ | ⟨_, rfl⟩ | ⟨_, rfl⟩
    · trivial
    · trivial
    · trivial
    · exact fun _ => rfl
    · exact fun h => absurd h (by decide)
    · exact fun h => absurd h (by decide)
  · cases h

/-- The three readers yield stored values, by induction on the bound that they share. -/
theorem isStored_of_read (fuel : Nat) :
    (∀ {cs rest v}, readValue fuel cs = .ok (v, rest) → v.IsStored) ∧
    (∀ {cs rest items}, readItems fuel cs = .ok (items, rest) → AllStored items) ∧
    (∀ {cs rest fields}, readMembers fuel cs = .ok (fields, rest) →
      ∀ f ∈ fields, f.2.IsStored) := by
  induction fuel with
  | zero =>
      refine ⟨?_, ?_, ?_⟩
      all_goals
        intro cs rest v h
        cases h
  | succ fuel ih =>
      obtain ⟨ihValue, ihItems, ihMembers⟩ := ih
      refine ⟨fun {cs rest v} h => ?_, fun {cs rest items} h => ?_, fun {cs rest fields} h => ?_⟩
      · cases cs with
        | nil => cases h
        | cons c cs =>
          simp only [readValue] at h
          split at h
          · obtain ⟨⟨s, after⟩, _, h⟩ := bind_eq_ok_iff.1 h
            cases h
            trivial
          split at h
          · split at h
            · cases h
              exact ⟨trivial, nofun⟩
            · obtain ⟨⟨members, after⟩, hmembers, h⟩ := bind_eq_ok_iff.1 h
              simp only at h
              split at h
              · next hclose =>
                cases h
                exact isStored_of_close (ihMembers hmembers) hclose
              · cases h
          split at h
          · split at h
            · cases h
              trivial
            · obtain ⟨⟨items, after⟩, hitems, h⟩ := bind_eq_ok_iff.1 h
              cases h
              exact ihItems hitems
          split at h
          · next hword =>
            cases h
            exact isStored_of_word? hword
          · exact isStored_of_readNumber h
      · simp only [readItems] at h
        obtain ⟨⟨v, after⟩, hv, h⟩ := bind_eq_ok_iff.1 h
        simp only at h
        split at h
        · cases h
          exact ⟨ihValue hv, trivial⟩
        · obtain ⟨⟨others, last⟩, hitems, h⟩ := bind_eq_ok_iff.1 h
          cases h
          exact ⟨ihValue hv, ihItems hitems⟩
        · cases h
      · simp only [readMembers] at h
        split at h
        · obtain ⟨⟨name, after⟩, _, h⟩ := bind_eq_ok_iff.1 h
          simp only at h
          split at h
          · obtain ⟨⟨v, more⟩, hv, h⟩ := bind_eq_ok_iff.1 h
            simp only at h
            split at h
            · cases h
              simpa using ihValue hv
            · obtain ⟨⟨members, last⟩, hmembers, h⟩ := bind_eq_ok_iff.1 h
              cases h
              exact List.forall_mem_cons.2 ⟨ihValue hv, ihMembers hmembers⟩
            · cases h
          · cases h
        · cases h

end Reader
end Document

/-- What is read from a text is a stored value. -/
theorem Value.isStored_of_loads {s : String} {v : Value} (h : loads s = .ok v) : v.IsStored := by
  rw [loads] at h
  split at h
  · next w hread =>
    cases h
    simp only [Reader.readAll] at hread
    split at hread
    · cases hread
    · obtain ⟨⟨w, rest⟩, hw, hread⟩ := bind_eq_ok_iff.1 hread
      simp only at hread
      split at hread
      · cases hread
        exact (Reader.isStored_of_read _).1 hw
      · cases hread
  · cases h

/-- A value as it comes back from storage is a stored value. -/
theorem Value.isStored_of_clone {v w : Value} (h : v.clone = .ok w) : w.IsStored := by
  rw [clone] at h
  split at h
  · cases h
  · split at h
    · cases h
    · next hloads =>
      cases h
      exact isStored_of_loads hloads

end RecordStore
