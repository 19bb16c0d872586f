import RecordStore.Proofs.Collection.Map
import RecordStore.Proofs.Document.Keys
import RecordStore.Proofs.Document.Refusing
import RecordStore.RangeExpression

/-!
Comparison mappings mean what they say. A mapping is translated when it has one operator, or one of
each side; the range that it stands for can be made unless the operands alone leave it void; and a key
is in the range, or meets its conditions on a column, when it compares with every operand as the
operator asks.
-/

namespace RecordStore

/-! ### Relations -/

/-- A relation allows two things to be in an order. -/
def Relation.allows : Relation → Ordering → Bool
  | .gt, order => order == .gt
  | .gte, order => order != .lt
  | .lt, order => order == .lt
  | .lte, order => order != .gt
  | .eq, order => order == .eq
  | .ne, order => order != .eq

theorem Condition.holds_eq (c : Condition) (key : Bytes) :
    c.holds key = c.relation.allows (key.compare c.bound) := by
  obtain ⟨relation, bound⟩ := c
  cases relation <;> rfl

theorem Bytes.lt_eq_true_iff_compare {a b : Bytes} : Bytes.lt b a = true ↔ a.compare b = .gt := by
  rw [Bytes.lt_eq_true_iff, Bytes.compare_eq_ord, Std.OrientedOrd.eq_swap (a := a), Ordering.swap_eq_gt]

namespace Key

open Document (FailsForData)

mutual

theorem failsForData_check : ∀ (v : Value) (depth : Nat), FailsForData (check depth v)
  | .int _, _ | .text _, _ | .bytes _, _ => .ok ()
  | .float x, depth => by
    rw [check]
    split
    · rintro f ⟨⟩
      rfl
    · exact .ok ()
  | .date d, depth => by
    rw [check]
    split
    · rintro f ⟨⟩
      rfl
    · exact .ok ()
  | .list items, depth | .tuple items, depth => by
    rw [check]
    split
    · rintro f ⟨⟩
      rfl
    · exact failsForData_checkAll items (depth + 1)
  | .null, _ | .bool _, _ | .set _, _ | .dict _, _ | .ellipsis, _ | .descriptor _, _
  | .keyRange _, _ | .bare _, _ | .keyed _ _, _ | .callable _, _ => by
    rintro f ⟨⟩
    rfl

theorem failsForData_checkAll : ∀ (items : List Value) (depth : Nat),
    FailsForData (checkAll depth items)
  | [], _ => .ok ()
  | v :: rest, depth =>
    (failsForData_check v depth).bind fun _ => failsForData_checkAll rest depth

end

end Key

/-- What is not a valid key is refused for its data when it is to be encoded. -/
theorem Value.encodeKey_of_isValidKey_eq_false {v : Value} (h : v.isValidKey = false) :
    ∃ f, v.encodeKey = .error (.store f) ∧ f.name = .data := by
  rw [isValidKey] at h
  cases hcheck : Key.check 0 v with
  | ok u => rw [hcheck] at h; cases h
  | error f =>
      have hencode : v.encodeKey = .error (.store f) := by
        rw [encodeKey, Key.ofValue, hcheck]
        rfl
      exact ⟨f, hencode, Key.failsForData_check v 0 f hcheck⟩

namespace RangeExpression

/-! ### Operators -/

/-- What an operator asks of how a key compares with its operand. -/
def relation? : Value → Option Relation
  | .text "eq" => some .eq
  | .text "gt" => some .gt
  | .text "gte" => some .gte
  | .text "lt" => some .lt
  | .text "lte" => some .lte
  | _ => none

/-- A member bounds from below. -/
def IsLower (m : Value × Value) : Prop := relation? m.1 = some .gt ∨ relation? m.1 = some .gte

/-- A member bounds from above. -/
def IsUpper (m : Value × Value) : Prop := relation? m.1 = some .lt ∨ relation? m.1 = some .lte

def lowerRelation (inclusive : Bool) : Relation := if inclusive then .gte else .gt

def upperRelation (inclusive : Bool) : Relation := if inclusive then .lte else .lt

variable {operator operand : Value} {m lo hi : Value × Value} {members : List (Value × Value)}

theorem isEqual_iff : isEqual operator = true ↔ relation? operator = some .eq := by
  unfold isEqual relation?
  split
  · simp
  · split <;> simp_all

theorem lower?_eq_some_iff {i : Bool} :
    lower? operator = some i ↔ relation? operator = some (lowerRelation i) := by
  unfold lower? relation? lowerRelation
  split
  · cases i <;> simp
  · cases i <;> simp
  · split <;> cases i <;> simp_all

theorem upper?_eq_some_iff {i : Bool} :
    upper? operator = some i ↔ relation? operator = some (upperRelation i) := by
  unfold upper? relation? upperRelation
  split
  · cases i <;> simp
  · cases i <;> simp
  · split <;> cases i <;> simp_all

theorem isLower_iff : IsLower m ↔ ∃ i, lower? m.1 = some i := by
  simp [IsLower, lower?_eq_some_iff, lowerRelation]

theorem isUpper_iff : IsUpper m ↔ ∃ i, upper? m.1 = some i := by
  simp [IsUpper, upper?_eq_some_iff, upperRelation]

theorem isLower_of_lower? {i : Bool} (h : lower? m.1 = some i) : IsLower m := isLower_iff.2 ⟨i, h⟩

theorem isUpper_of_upper? {i : Bool} (h : upper? m.1 = some i) : IsUpper m := isUpper_iff.2 ⟨i, h⟩

/-- No operator bounds from both sides. -/
theorem not_isUpper_of_isLower (h : IsLower m) : ¬IsUpper m := by
  rintro (hu | hu) <;> rcases h with hl | hl <;> rw [hl] at hu <;> cases hu

theorem lower?_eq_none_of_upper? {i : Bool} (h : upper? operator = some i) :
    lower? operator = none := by
  by_contra hne
  obtain ⟨j, hj⟩ := Option.ne_none_iff_exists'.1 hne
  exact not_isUpper_of_isLower (m := (operator, .null)) (isLower_of_lower? hj) (isUpper_of_upper? h)

/-! ### What is translated -/

/-- One operator, or one that bounds from below and one that bounds from above, in either order. -/
inductive IsComparison : List (Value × Value) → Prop
  | one {m : Value × Value} : (relation? m.1).isSome = true → IsComparison [m]
  | rising {lo hi : Value × Value} : IsLower lo → IsUpper hi → IsComparison [lo, hi]
  | falling {lo hi : Value × Value} : IsLower lo → IsUpper hi → IsComparison [hi, lo]

/-- The descriptor of a relation to a value. -/
def descriptor (r : Relation) (v : Value) : Descriptor Value :=
  match r with
  | .gt => .lower v (.bool false)
  | .gte => .lower v (.bool true)
  | .lt => .upper v (.bool false)
  | .lte => .upper v (.bool true)
  | .eq | .ne => .equals v

theorem single_of_relation? {r : Relation} (h : relation? operator = some r) :
    single operator operand = .ok (.descriptor (descriptor r operand)) := by
  unfold relation? at h
  split at h <;> cases h <;> rfl

theorem single_of_unknown (h : relation? operator = none) :
    single operator operand = .error (.unknownOperator operator) := by
  have heq : isEqual operator = false := by
    rw [Bool.eq_false_iff, Ne, isEqual_iff, h]
    exact nofun
  have hlo : lower? operator = none := by
    by_contra hne
    obtain ⟨i, hi⟩ := Option.ne_none_iff_exists'.1 hne
    rw [lower?_eq_some_iff, h] at hi
    cases hi
  have hhi : upper? operator = none := by
    by_contra hne
    obtain ⟨i, hi⟩ := Option.ne_none_iff_exists'.1 hne
    rw [upper?_eq_some_iff, h] at hi
    cases hi
  simp only [single, heq, hlo, hhi, Bool.false_eq_true, if_false]

theorem pair_rising {i j : Bool} (hlo : lower? lo.1 = some i) (hhi : upper? hi.1 = some j) :
    pair lo hi = .ok (.descriptor (.bound lo.2 hi.2 (.bool i) (.bool j))) := by
  simp only [pair, hlo, hhi]

theorem pair_falling {i j : Bool} (hlo : lower? lo.1 = some i) (hhi : upper? hi.1 = some j) :
    pair hi lo = .ok (.descriptor (.bound lo.2 hi.2 (.bool i) (.bool j))) := by
  simp only [pair, hlo, hhi, lower?_eq_none_of_upper? hhi]

theorem isComparison_of_pair {first second : Value × Value} {d : Value}
    (h : pair first second = .ok d) : IsComparison [first, second] := by
  unfold pair at h
  split at h
  · next hlo hhi => exact .rising (isLower_of_lower? hlo) (isUpper_of_upper? hhi)
  · next hlo hhi _ => exact .falling (isLower_of_lower? hlo) (isUpper_of_upper? hhi)
  · cases h

/-- A mapping is translated exactly when it is a comparison. -/
theorem exists_translate_iff : (∃ d, translate (.dict members) = .ok d) ↔ IsComparison members := by
  constructor
  · rintro ⟨d, hd⟩
    match members with
    | [] => cases hd
    | [(operator, operand)] =>
        cases hr : relation? operator with
        | none => cases (single_of_unknown hr).symm.trans hd
        | some r => exact .one (Option.isSome_iff_exists.2 ⟨r, hr⟩)
    | [first, second] => exact isComparison_of_pair hd
    | _ :: _ :: _ :: _ => cases hd
  · intro h
    cases h with
    | one hr =>
        obtain ⟨r, hr⟩ := Option.isSome_iff_exists.1 hr
        exact ⟨_, single_of_relation? hr⟩
    | rising hlo hhi =>
        obtain ⟨i, hi⟩ := isLower_iff.1 hlo
        obtain ⟨j, hj⟩ := isUpper_iff.1 hhi
        exact ⟨_, pair_rising hi hj⟩
    | falling hlo hhi =>
        obtain ⟨i, hi⟩ := isLower_iff.1 hlo
        obtain ⟨j, hj⟩ := isUpper_iff.1 hhi
        exact ⟨_, pair_falling hi hj⟩

/-- A single operator is refused as unknown, and anything else for its operators together. -/
theorem className_of_translate {f : Failure} (h : translate (.dict members) = .error f) :
    f.className =
      if members.length = 1 then "InvalidRangeKeyError" else "ConflictingRangeKeysError" := by
  match members with
  | [] => cases h; rfl
  | [(operator, operand)] =>
      cases hr : relation? operator with
      | none => cases (single_of_unknown hr).symm.trans h; rfl
      | some r => cases (single_of_relation? hr).symm.trans h
  | [first, second] =>
      have hpair : pair first second = .error f := h
      unfold pair at hpair
      split at hpair <;> cases hpair
      rfl
  | _ :: _ :: _ :: _ => cases h; rfl

/-! ### Ranges -/

/-- The conditions of a range, told by how a key compares with the bounds that are there. -/
theorem allHold_conditions (range : KeyRange Value) (key : Bytes) :
    Condition.allHold range.conditions key =
      ((range.lowerKey.all fun lo => (lowerRelation !range.lowerOpen).allows (key.compare lo)) &&
        range.upperKey.all fun hi => (upperRelation !range.upperOpen).allows (key.compare hi)) := by
  have hlower : (if range.lowerOpen then Relation.gt else .gte) = lowerRelation !range.lowerOpen := by
    cases range.lowerOpen <;> rfl
  have hupper : (if range.upperOpen then Relation.lt else .lte) = upperRelation !range.upperOpen := by
    cases range.upperOpen <;> rfl
  rw [KeyRange.conditions, hlower, hupper, Condition.allHold, List.all_append]
  cases range.lowerKey <;> cases range.upperKey <;> simp [Condition.holds_eq]

/-- A range has the keys that meet a condition, given on encoded keys. -/
def Selects (range : KeyRange Value) (p : Bytes → Bool) : Prop :=
  ∀ key, Condition.allHold range.conditions key = p key

theorem resolve_one_of_error {r : Relation} {f : Failure} (hr : relation? operator = some r)
    (hf : operand.encodeKey = .error f) : resolve (.dict [(operator, operand)]) = .error f := by
  have htranslate : translate (.dict [(operator, operand)]) = _ := single_of_relation? hr
  rw [resolve, htranslate, ok_bind]
  cases r <;> simp only [descriptor, toNative, KeyRange.only, KeyRange.lowerBound,
    KeyRange.upperBound, hf, error_bind] <;> rfl

/-- The range of one operator has the keys that it asks for. -/
theorem resolve_one {r : Relation} {b : Bytes} (hr : relation? operator = some r)
    (hb : operand.encodeKey = .ok b) :
    ∃ range, resolve (.dict [(operator, operand)]) = .ok (.keyRange range) ∧
      Selects range fun key => r.allows (key.compare b) := by
  have htranslate : translate (.dict [(operator, operand)]) = _ := single_of_relation? hr
  rw [resolve, htranslate, ok_bind]
  unfold relation? at hr
  split at hr <;> cases hr <;> simp only [descriptor, toNative, KeyRange.only, KeyRange.lowerBound,
    KeyRange.upperBound, hb, ok_bind, map_ok]
  all_goals
    refine ⟨_, rfl, fun key => ?_⟩
    simp only [allHold_conditions, Option.all_some, Option.all_none]
    cases key.compare b <;> rfl

/-- What two operators come to, by how their operands are encoded. -/
theorem resolve_pair {i j : Bool} {a b : Bytes} (htranslate : translate (.dict members) =
      .ok (.descriptor (.bound lo.2 hi.2 (.bool i) (.bool j))))
    (ha : lo.2.encodeKey = .ok a) (hb : hi.2.encodeKey = .ok b) :
    if a.compare b = .gt then resolve (.dict members) = .error (.store .boundsCrossed)
    else if a.compare b = .eq ∧ ¬(i ∧ j) then
      resolve (.dict members) = .error (.store .boundsEmpty)
    else ∃ range, resolve (.dict members) = .ok (.keyRange range) ∧
      Selects range fun key =>
        (lowerRelation i).allows (key.compare a) && (upperRelation j).allows (key.compare b) := by
  have hopen : (((!(Value.bool i).isTrue) = true) ∨ ((!(Value.bool j).isTrue) = true)) ↔
      ¬(i = true ∧ j = true) := by
    cases i <;> cases j <;> simp [Value.isTrue]
  rw [resolve, htranslate, ok_bind, toNative, KeyRange.bound, ha, hb, ok_bind, ok_bind]
  simp only [Bytes.lt_eq_true_iff_compare, hopen, Bytes.compare_eq_iff]
  split
  · rfl
  · split
    · rfl
    · refine ⟨_, rfl, fun key => ?_⟩
      simp [allHold_conditions, Value.isTrue]

/-! ### Comparisons -/

/-- Two members in some order, of which one bounds from below and one from above. -/
structure IsPair (members : List (Value × Value)) (lo hi : Value × Value) (i j : Bool) : Prop where
  mem : ∀ m, m ∈ members ↔ m = lo ∨ m = hi
  lower : lower? lo.1 = some i
  upper : upper? hi.1 = some j
  translate : translate (.dict members) = .ok (.descriptor (.bound lo.2 hi.2 (.bool i) (.bool j)))

theorem IsComparison.one_or_isPair (h : IsComparison members) :
    (∃ m r, members = [m] ∧ relation? m.1 = some r) ∨ ∃ lo hi i j, IsPair members lo hi i j := by
  cases h with
  | one hr =>
      obtain ⟨r, hr⟩ := Option.isSome_iff_exists.1 hr
      exact .inl ⟨_, r, rfl, hr⟩
  | @rising lo hi hlo hhi =>
      obtain ⟨i, hi'⟩ := isLower_iff.1 hlo
      obtain ⟨j, hj⟩ := isUpper_iff.1 hhi
      exact .inr ⟨lo, hi, i, j, by simp, hi', hj, pair_rising hi' hj⟩
  | @falling lo hi hlo hhi =>
      obtain ⟨i, hi'⟩ := isLower_iff.1 hlo
      obtain ⟨j, hj⟩ := isUpper_iff.1 hhi
      exact .inr ⟨lo, hi, i, j, by simp [or_comm], hi', hj, pair_falling hi' hj⟩

/-- The operands alone leave no range: one of them is not a valid key, or the lower one is greater than
the upper one, or equal to it where one of the two is excluded. -/
def IsVoid (members : List (Value × Value)) : Prop :=
  (∃ m ∈ members, m.2.isValidKey = false) ∨
  ∃ lo ∈ members, ∃ hi ∈ members, IsLower lo ∧ IsUpper hi ∧
    (lo.2.compareKeys hi.2 = .ok .gt ∨
      lo.2.compareKeys hi.2 = .ok .eq ∧ (relation? lo.1 = some .gt ∨ relation? hi.1 = some .lt))

/-- A key compares with the operand of a member as its operator asks. -/
def IsMet (k : Value) (m : Value × Value) : Prop :=
  ∃ r order, relation? m.1 = some r ∧ k.compareKeys m.2 = .ok order ∧ r.allows order = true

/-- The range of a mapping has the keys that meet every member. -/
def Means (range : KeyRange Value) (members : List (Value × Value)) : Prop :=
  ∀ k key, k.encodeKey = .ok key →
    (Condition.allHold range.conditions key = true ↔ ∀ m ∈ members, IsMet k m)

theorem compareKeys_eq {k v : Value} {a b : Bytes} (ha : k.encodeKey = .ok a)
    (hb : v.encodeKey = .ok b) : k.compareKeys v = .ok (a.compare b) := by
  rw [Value.compareKeys, ha, hb, ok_bind, ok_bind]

theorem isMet_iff {k : Value} {a b : Bytes} {r : Relation} (hr : relation? m.1 = some r)
    (ha : k.encodeKey = .ok a) (hb : m.2.encodeKey = .ok b) :
    IsMet k m ↔ r.allows (a.compare b) = true := by
  simp [IsMet, hr, compareKeys_eq ha hb]

namespace IsPair

variable {i j : Bool} {a b : Bytes} (h : IsPair members lo hi i j)
include h

theorem relation_lower : relation? lo.1 = some (lowerRelation i) := lower?_eq_some_iff.1 h.lower

theorem relation_upper : relation? hi.1 = some (upperRelation j) := upper?_eq_some_iff.1 h.upper

/-- With operands that can be encoded, only their order can leave no range. -/
theorem isVoid_iff (ha : lo.2.encodeKey = .ok a) (hb : hi.2.encodeKey = .ok b) :
    IsVoid members ↔ a.compare b = .gt ∨ a.compare b = .eq ∧ ¬(i = true ∧ j = true) := by
  have hopen : (relation? lo.1 = some .gt ∨ relation? hi.1 = some .lt) ↔
      ¬(i = true ∧ j = true) := by
    rw [h.relation_lower, h.relation_upper]
    cases i <;> cases j <;> simp [lowerRelation, upperRelation]
  constructor
  · rintro (⟨m, hm, hinvalid⟩ | ⟨lo', hlo', hi', hhi', hlower, hupper, horder⟩)
    · rcases (h.mem m).1 hm with rfl | rfl
      · rw [Value.isValidKey_of_encodeKey ha] at hinvalid
        cases hinvalid
      · rw [Value.isValidKey_of_encodeKey hb] at hinvalid
        cases hinvalid
    · -- Neither member can stand on the side of the other.
      rcases (h.mem lo').1 hlo' with rfl | rfl
      · rcases (h.mem hi').1 hhi' with rfl | rfl
        · exact (not_isUpper_of_isLower hlower hupper).elim
        · simpa only [compareKeys_eq ha hb, hopen, Except.ok.injEq] using horder
      · exact (not_isUpper_of_isLower hlower (isUpper_of_upper? h.upper)).elim
  · intro horder
    refine .inr ⟨lo, (h.mem lo).2 (.inl rfl), hi, (h.mem hi).2 (.inr rfl), isLower_of_lower? h.lower,
      isUpper_of_upper? h.upper, ?_⟩
    simpa only [compareKeys_eq ha hb, hopen, Except.ok.injEq] using horder

theorem resolve_of_error {f : Failure} (hm : m ∈ members) (hf : m.2.encodeKey = .error f) :
    ∃ m' ∈ members, ∃ f', m'.2.encodeKey = .error f' ∧ resolve (.dict members) = .error f' := by
  have hresolve : resolve (.dict members) =
      (KeyRange.bound lo.2 hi.2 (!(Value.bool i).isTrue) !(Value.bool j).isTrue).map .keyRange := by
    rw [resolve, h.translate, ok_bind, toNative]
  rw [KeyRange.bound] at hresolve
  cases ha : lo.2.encodeKey with
  | error f' =>
      rw [ha, error_bind] at hresolve
      exact ⟨lo, (h.mem lo).2 (.inl rfl), f', ha, hresolve⟩
  | ok a =>
      rcases (h.mem m).1 hm with rfl | rfl
      · cases ha.symm.trans hf
      · rw [ha, hf, ok_bind, error_bind] at hresolve
        exact ⟨_, hm, f, hf, hresolve⟩

theorem means_of_selects {range : KeyRange Value} (ha : lo.2.encodeKey = .ok a)
    (hb : hi.2.encodeKey = .ok b) (hselects : Selects range fun key =>
      (lowerRelation i).allows (key.compare a) && (upperRelation j).allows (key.compare b)) :
    Means range members := by
  intro k key hk
  have hlower := isMet_iff h.relation_lower hk ha
  have hupper := isMet_iff h.relation_upper hk hb
  rw [hselects key, Bool.and_eq_true, ← hlower, ← hupper]
  simp only [h.mem, forall_eq_or_imp, forall_eq]

end IsPair

namespace IsComparison

/-- A range is not made when an operand cannot be encoded, and fails as such an operand does. -/
theorem resolve_of_error {f : Failure} (h : IsComparison members) (hm : m ∈ members)
    (hf : m.2.encodeKey = .error f) :
    ∃ m' ∈ members, ∃ f', m'.2.encodeKey = .error f' ∧ resolve (.dict members) = .error f' := by
  obtain ⟨m', r, rfl, hr⟩ | ⟨lo, hi, i, j, hpair⟩ := h.one_or_isPair
  · obtain rfl := List.mem_singleton.1 hm
    exact ⟨m, hm, f, hf, resolve_one_of_error hr hf⟩
  · exact hpair.resolve_of_error hm hf

/-- With operands that can be encoded, a range is made unless they leave none, and it has the keys that
it should. -/
theorem resolve_of_encodes (h : IsComparison members)
    (hencodes : ∀ m ∈ members, ∃ b, m.2.encodeKey = .ok b) :
    (IsVoid members ∧ ∃ f, resolve (.dict members) = .error (.store f) ∧ f.name = .data) ∨
      ¬IsVoid members ∧ ∃ range, resolve (.dict members) = .ok (.keyRange range) ∧
        Means range members := by
  obtain ⟨m, r, rfl, hr⟩ | ⟨lo, hi, i, j, hpair⟩ := h.one_or_isPair
  · obtain ⟨b, hb⟩ := hencodes m List.mem_cons_self
    obtain ⟨range, hrange, hselects⟩ := resolve_one hr hb
    refine .inr ⟨?_, range, hrange, fun k key hk => ?_⟩
    · rintro (⟨m', hm', hinvalid⟩ | ⟨lo, hlo, hi, hhi, hlower, hupper, -⟩)
      · rw [List.mem_singleton.1 hm', Value.isValidKey_of_encodeKey hb] at hinvalid
        cases hinvalid
      · rw [List.mem_singleton.1 hlo] at hlower
        rw [List.mem_singleton.1 hhi] at hupper
        exact not_isUpper_of_isLower hlower hupper
    · rw [hselects key, ← isMet_iff hr hk hb]
      simp
  · obtain ⟨a, ha⟩ := hencodes lo ((hpair.mem lo).2 (.inl rfl))
    obtain ⟨b, hb⟩ := hencodes hi ((hpair.mem hi).2 (.inr rfl))
    have hresolve := resolve_pair hpair.translate ha hb
    rw [hpair.isVoid_iff ha hb]
    split at hresolve
    · next hgt => exact .inl ⟨.inl hgt, _, hresolve, rfl⟩
    · next hgt =>
      split at hresolve
      · next hempty => exact .inl ⟨.inr hempty, _, hresolve, rfl⟩
      · next hempty =>
        obtain ⟨range, hrange, hselects⟩ := hresolve
        exact .inr ⟨by tauto, range, hrange, hpair.means_of_selects ha hb hselects⟩

/-- What a range is made of has operands that can be encoded. -/
theorem encodes_of_resolve {native : Value} (h : IsComparison members)
    (hnative : resolve (.dict members) = .ok native) : ∀ m ∈ members, ∃ b, m.2.encodeKey = .ok b := by
  intro m hm
  cases hb : m.2.encodeKey with
  | ok b => exact ⟨b, rfl⟩
  | error f =>
      obtain ⟨-, -, f', -, hresolve⟩ := h.resolve_of_error hm hb
      cases hresolve.symm.trans hnative

/-- A comparison with an operand that is not a valid key fails for its data, if all others can be
encoded. -/
theorem isVoid_or_resolves (h : IsComparison members)
    (hvalid : ∀ m ∈ members, m.2.isValidKey = true → ∃ b, m.2.encodeKey = .ok b) :
    (IsVoid members ∧ ∃ f, resolve (.dict members) = .error (.store f) ∧ f.name = .data) ∨
      ¬IsVoid members ∧ ∃ range, resolve (.dict members) = .ok (.keyRange range) ∧
        Means range members := by
  by_cases hencodes : ∀ m ∈ members, ∃ b, m.2.encodeKey = .ok b
  · exact h.resolve_of_encodes hencodes
  · push Not at hencodes
    obtain ⟨m, hm, hnone⟩ := hencodes
    obtain ⟨f, hf⟩ : ∃ f, m.2.encodeKey = .error f := by
      cases hb : m.2.encodeKey with
      | error f => exact ⟨f, rfl⟩
      | ok b => exact (hnone b hb).elim
    -- The operand that the range fails for need not be this one, but it is not a valid key either.
    obtain ⟨m', hm', f', hf', hresolve⟩ := h.resolve_of_error hm hf
    have hinvalid : m'.2.isValidKey = false := by
      rw [← Bool.not_eq_true]
      intro hv
      obtain ⟨b, hb⟩ := hvalid m' hm' hv
      cases hf'.symm.trans hb
    obtain ⟨g, hg, hname⟩ := Value.encodeKey_of_isValidKey_eq_false hinvalid
    cases hf'.symm.trans hg
    exact .inl ⟨.inl ⟨m', hm', hinvalid⟩, g, hresolve, hname⟩

end IsComparison

/-- The letters from a on that come before c. -/
def beforeC : List (Value × Value) := [(.text "lt", .text "c"), (.text "gte", .text "a")]

end RangeExpression
end RecordStore
