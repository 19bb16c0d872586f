import RecordStore.Proofs.Key.ByteOrder
import RecordStore.Proofs.Number.DoubleOrder
import RecordStore.Proofs.Results

/-!
The order of keys, and that encoding embeds it into the order of bytes. Keys are ordered by kind
and then within their kind; arrays are compared element by element. The induction is on the keys
with arbitrary bytes after both encodings, since within an array the end of one element meets the
start of the next.
-/

namespace RecordStore
namespace Key

/-- The place of a kind of keys among the others. -/
def kindRank : Key → Nat
  | number _ => 0
  | date _ => 1
  | text _ => 2
  | bytes _ => 3
  | array _ => 4

mutual

/-- The order of keys: numbers and dates by value, texts by code points, bytes byte by byte, arrays
by their elements. -/
def compare : Key → Key → Ordering
  | number x, number y => Ord.compare x.extended y.extended
  | date x, date y => Ord.compare x.extended y.extended
  | text s, text t => Ord.compare (Utf8.codePoints s) (Utf8.codePoints t)
  | bytes a, bytes b => Ord.compare a b
  | array ks, array ls => compareAll ks ls
  | k, l => Ord.compare k.kindRank l.kindRank

/-- The order of rows of keys: the first elements that differ decide, and a beginning comes before
what it begins. -/
def compareAll : List Key → List Key → Ordering
  | [], [] => .eq
  | [], _ :: _ => .lt
  | _ :: _, [] => .gt
  | k :: ks, l :: ls => (compare k l).then (compareAll ks ls)

end

mutual

/-- No number in a key is a NaN. -/
def IsOrdered : Key → Prop
  | number x => x.isNaN = false
  | date x => x.isNaN = false
  | text _ => True
  | bytes _ => True
  | array ks => AllOrdered ks

def AllOrdered : List Key → Prop
  | [] => True
  | k :: ks => IsOrdered k ∧ AllOrdered ks

end

/-! ### Numbers -/

theorem orderedWord_eq (x : Double) :
    (orderedWord x : Int) = if x.rank < 0 then 2 ^ 63 - 1 + x.rank else 2 ^ 63 + x.rank := by
  have hw := Double.word_eq x.withoutNegativeZero
  have hi := x.index_lt
  have hr := Double.natAbs_rank x
  rw [Double.index_withoutNegativeZero] at hw
  by_cases hn : x.rank < 0
  · obtain ⟨hneg, hne⟩ := Double.rank_neg_iff.1 hn
    have hz : x.isZero = false := by simp [Double.isZero, hne]
    have hword : x.withoutNegativeZero.word = x.index + 2 ^ 63 := by
      simpa [Double.withoutNegativeZero, hz, hneg] using hw
    rw [if_pos hn]
    simp only [orderedWord, hword]
    rw [if_neg (by omega)]
    omega
  · have hword : x.withoutNegativeZero.word = x.index := by
      rw [Double.rank_neg_iff] at hn
      rw [hw, Double.withoutNegativeZero_eq, Double.isNegative_ofIndex _ hi]
      by_cases hz : x.index = 0
      · simp [Double.isZero, hz]
      · simp_all
    rw [if_neg hn]
    simp only [orderedWord, hword]
    rw [if_pos hi]
    omega

theorem orderedWord_lt (x : Double) : orderedWord x < 2 ^ 64 := by
  have h := orderedWord_eq x
  have hi := x.index_lt
  have hr := Double.natAbs_rank x
  split at h <;> omega

theorem compare_orderedWord {x y : Double} (hx : x.isNaN = false) (hy : y.isNaN = false) :
    Ord.compare (orderedWord x) (orderedWord y) = Ord.compare x.extended y.extended := by
  have ex := orderedWord_eq x
  have ey := orderedWord_eq y
  rw [← Double.compare_rank hx hy]
  rcases lt_trichotomy x.rank y.rank with h | h | h
  · rw [Int.compare_eq_lt.2 h, Nat.compare_eq_lt]
    split at ex <;> split at ey <;> omega
  · rw [Int.compare_eq_eq.2 h, Nat.compare_eq_eq]
    split at ex <;> split at ey <;> omega
  · rw [Int.compare_eq_gt.2 h, Nat.compare_eq_gt]
    split at ex <;> split at ey <;> omega

theorem compare_encodeDouble {x y : Double} (hx : x.isNaN = false) (hy : y.isNaN = false)
    (s t : Bytes) :
    (encodeDouble x ++ s).compare (encodeDouble y ++ t) =
      (Ord.compare x.extended y.extended).then (s.compare t) := by
  rw [encodeDouble, encodeDouble, compare_wordBytes (orderedWord_lt x) (orderedWord_lt y),
    compare_orderedWord hx hy]

/-! ### Keys -/

/-- The byte that tells the kind of a key. -/
def tag : Key → UInt8
  | number _ => numberTag
  | date _ => dateTag
  | text _ => textTag
  | bytes _ => bytesTag
  | array _ => arrayTag

theorem compare_tag (k l : Key) :
    Ord.compare k.tag.toNat l.tag.toNat = Ord.compare k.kindRank l.kindRank := by
  cases k <;> cases l <;> rfl

theorem encode_eq_tag_cons (k : Key) : ∃ rest, encode k = k.tag :: rest := by
  cases k <;> exact ⟨_, by rw [encode]; rfl⟩

theorem compare_encode_of_kindRank_ne {k l : Key} (h : k.kindRank ≠ l.kindRank) (s t : Bytes) :
    (encode k ++ s).compare (encode l ++ t) =
      (Ord.compare k.kindRank l.kindRank).then (s.compare t) := by
  obtain ⟨rest, hk⟩ := encode_eq_tag_cons k
  obtain ⟨rest', hl⟩ := encode_eq_tag_cons l
  rw [hk, hl, List.cons_append, List.cons_append, Bytes.compare_cons_cons, compare_tag]
  rcases Nat.lt_or_gt_of_ne h with h | h
  · rw [Nat.compare_eq_lt.2 h]
    rfl
  · rw [Nat.compare_eq_gt.2 h]
    rfl

/-- The end of an array sorts before every element. -/
theorem tag_pos (k : Key) : (0 : UInt8).toNat < k.tag.toNat := by cases k <;> exact Nat.zero_lt_succ _

theorem compare_of_kindRank_ne {k l : Key} (h : k.kindRank ≠ l.kindRank) :
    k.compare l = Ord.compare k.kindRank l.kindRank := by
  cases k <;> cases l <;> first | exact absurd rfl h | simp only [compare]

theorem compare_encode_append_of_ne {k l : Key} (h : k.kindRank ≠ l.kindRank) (s t : Bytes) :
    (encode k ++ s).compare (encode l ++ t) = (k.compare l).then (s.compare t) := by
  rw [compare_encode_of_kindRank_ne h, compare_of_kindRank_ne h]

mutual

theorem compare_encode_append : ∀ {k l : Key}, k.IsOrdered → l.IsOrdered → ∀ s t : Bytes,
    (encode k ++ s).compare (encode l ++ t) = (k.compare l).then (s.compare t)
  | .number x, l, hk, hl, s, t => by
    cases l with
    | number y =>
        simp only [IsOrdered] at hk hl
        simp only [encode, compare, List.cons_append, Bytes.compare_cons_self,
          compare_encodeDouble hk hl]
    | _ => exact compare_encode_append_of_ne (by simp [kindRank]) s t
  | .date x, l, hk, hl, s, t => by
    cases l with
    | date y =>
        simp only [IsOrdered] at hk hl
        simp only [encode, compare, List.cons_append, Bytes.compare_cons_self,
          compare_encodeDouble hk hl]
    | _ => exact compare_encode_append_of_ne (by simp [kindRank]) s t
  | .text a, l, _, _, s, t => by
    cases l with
    | text b =>
        simp only [encode, compare, List.cons_append, Bytes.compare_cons_self, compare_escape,
          Utf8.compare_encode]
    | _ => exact compare_encode_append_of_ne (by simp [kindRank]) s t
  | .bytes a, l, _, _, s, t => by
    cases l with
    | bytes b =>
        simp only [encode, compare, List.cons_append, Bytes.compare_cons_self, compare_escape,
          Bytes.compare_eq_ord a b]
    | _ => exact compare_encode_append_of_ne (by simp [kindRank]) s t
  | .array ks, l, hk, hl, s, t => by
    cases l with
    | array ls =>
        simp only [IsOrdered] at hk hl
        simp only [encode, compare, List.cons_append, Bytes.compare_cons_self,
          compare_encodeAll_append hk hl]
    | _ => exact compare_encode_append_of_ne (by simp [kindRank]) s t

theorem compare_encodeAll_append : ∀ {ks ls : List Key}, AllOrdered ks → AllOrdered ls →
    ∀ s t : Bytes,
    (encodeAll ks ++ s).compare (encodeAll ls ++ t) = (compareAll ks ls).then (s.compare t)
  | [], [], _, _, s, t => by
    simp only [encodeAll, compareAll, List.cons_append, List.nil_append, Bytes.compare_cons_self,
      Ordering.eq_then]
  | [], l :: ls, _, _, s, t => by
    obtain ⟨rest, hl⟩ := encode_eq_tag_cons l
    simp only [encodeAll, compareAll, hl, List.cons_append, List.nil_append, Ordering.lt_then]
    exact Bytes.compare_cons_of_lt (tag_pos l) _ _
  | k :: ks, [], _, _, s, t => by
    obtain ⟨rest, hk⟩ := encode_eq_tag_cons k
    simp only [encodeAll, compareAll, hk, List.cons_append, List.nil_append, Ordering.gt_then]
    exact Bytes.compare_cons_of_gt (tag_pos k) _ _
  | k :: ks, l :: ls, ⟨hk, hks⟩, ⟨hl, hls⟩, s, t => by
    simp only [encodeAll, compareAll, List.append_assoc, Ordering.then_assoc,
      compare_encode_append hk hl, compare_encodeAll_append hks hls]

end

/-- Bytes of encoded keys have the order of the keys. -/
theorem compare_encode {k l : Key} (hk : k.IsOrdered) (hl : l.IsOrdered) :
    (encode k).compare (encode l) = k.compare l := by
  have h := compare_encode_append hk hl [] []
  rwa [List.append_nil, List.append_nil, Bytes.compare_nil_nil, Ordering.then_eq] at h

/-- What is encoded as a number is a number of the same value. -/
theorem eq_number_of_encode_eq {k : Key} {x : Double} (hk : k.IsOrdered) (hx : x.isNaN = false)
    (h : encode k = encode (.number x)) : ∃ y, k = .number y ∧ y.extended = x.extended := by
  have hnumber : IsOrdered (.number x) := by
    rw [IsOrdered]
    exact hx
  have hcompare := compare_encode hk hnumber
  rw [h, Bytes.compare_self] at hcompare
  cases k with
  | number y =>
      rw [compare] at hcompare
      exact ⟨y, rfl, compare_eq_iff_eq.1 hcompare.symm⟩
  | _ =>
      rw [compare_of_kindRank_ne (by simp [kindRank])] at hcompare
      cases hcompare

/-- No encoded key is the beginning of another one. -/
theorem eq_nil_of_encode_append {k l : Key} (hk : k.IsOrdered) (hl : l.IsOrdered) {s : Bytes}
    (h : encode k ++ s = encode l) : s = [] := by
  have hc := compare_encode_append hk hl s []
  rw [List.append_nil, h, Bytes.compare_self] at hc
  exact Bytes.compare_eq_iff.1 (Ordering.then_eq_eq.1 hc.symm).2

/-! ### Values as keys -/

theorem isNaN_millisOf (micros : Int) : (millisOf micros).isNaN = false :=
  Double.isNaN_ofUnitsRatio _ _ _

mutual

/-- What passes the check is converted to a key without NaNs. -/
theorem isOrdered_of_convert : ∀ {v : Value} {depth : Nat} {k : Key},
    check depth v = .ok () → convert v = .ok k → k.IsOrdered
  | .int n, _, k, _, hk => by
    simp only [convert] at hk
    split at hk
    · next x hx =>
      cases hk
      exact Double.isNaN_of_ofInt? hx
    · cases hk
  | .float x, _, k, hc, hk => by
    cases hk
    simp only [check] at hc
    split at hc
    · cases hc
    · next hx => simpa [IsOrdered] using hx
  | .date d, _, k, _, hk => by
    cases hk
    exact isNaN_millisOf _
  | .text s, _, k, _, hk => by
    cases hk
    trivial
  | .bytes b, _, k, _, hk => by
    cases hk
    trivial
  | .list items, depth, k, hc, hk => by
    simp only [check] at hc
    split at hc
    · cases hc
    · simp only [convert] at hk
      obtain ⟨ks, hks, rfl⟩ := map_eq_ok_iff.1 hk
      exact allOrdered_of_convertAll hc hks
  | .tuple items, depth, k, hc, hk => by
    simp only [check] at hc
    split at hc
    · cases hc
    · simp only [convert] at hk
      obtain ⟨ks, hks, rfl⟩ := map_eq_ok_iff.1 hk
      exact allOrdered_of_convertAll hc hks
  | .null, _, _, hc, _ => by cases hc
  | .bool _, _, _, hc, _ => by cases hc
  | .set _, _, _, hc, _ => by cases hc
  | .dict _, _, _, hc, _ => by cases hc
  | .ellipsis, _, _, hc, _ => by cases hc
  | .descriptor _, _, _, hc, _ => by cases hc
  | .keyRange _, _, _, hc, _ => by cases hc
  | .bare _, _, _, hc, _ => by cases hc
  | .keyed _ _, _, _, hc, _ => by cases hc
  | .callable _, _, _, hc, _ => by cases hc

theorem allOrdered_of_convertAll : ∀ {items : List Value} {depth : Nat} {ks : List Key},
    checkAll depth items = .ok () → convertAll items = .ok ks → AllOrdered ks
  | [], _, ks, _, hk => by
    cases hk
    trivial
  | v :: rest, depth, ks, hc, hk => by
    simp only [checkAll] at hc
    simp only [convertAll] at hk
    obtain ⟨_, hv, hrest⟩ := bind_eq_ok_iff.1 hc
    obtain ⟨k, hconv, h⟩ := bind_eq_ok_iff.1 hk
    obtain ⟨ls, hls, h⟩ := bind_eq_ok_iff.1 h
    cases h
    exact ⟨isOrdered_of_convert hv hconv, allOrdered_of_convertAll hrest hls⟩

end

theorem isOrdered_of_ofValue {v : Value} {k : Key} (h : ofValue v = .ok k) : k.IsOrdered :=
  isOrdered_of_convert (ofValue_eq_ok_iff.1 h).1 (ofValue_eq_ok_iff.1 h).2

end Key

/-- Encoding embeds the order of keys: two values that can be encoded stand for keys, the bytes of
one come before those of the other exactly when its key does, and they are the same bytes exactly
when the keys are equal in the order. -/
theorem Value.encodeKey_order {v w : Value} {a b : Bytes} (hv : v.encodeKey = .ok a)
    (hw : w.encodeKey = .ok b) :
    ∃ k l, Key.ofValue v = .ok k ∧ Key.ofValue w = .ok l ∧
      Ord.compare a b = k.compare l ∧ v.compareKeys w = .ok (k.compare l) ∧
      (a = b ↔ k.compare l = .eq) := by
  obtain ⟨k, hk, rfl⟩ := Value.encodeKey_eq_ok_iff.1 hv
  obtain ⟨l, hl, rfl⟩ := Value.encodeKey_eq_ok_iff.1 hw
  have horder := Key.compare_encode (Key.isOrdered_of_ofValue hk) (Key.isOrdered_of_ofValue hl)
  refine ⟨k, l, hk, hl, ?_, ?_, ?_⟩
  · rw [← Bytes.compare_eq_ord, horder]
  · rw [Value.compareKeys, hv, hw, ok_bind, ok_bind, horder]
  · rw [← horder, Bytes.compare_eq_iff]

/-- Two nested arrays that differ in the last byte of some content, after an escaped zero. -/
theorem Value.encodeKey_order_nested :
    ∃ k l, Key.ofValue (.list [.text "a\x00", .list [.int (-3), .bytes [0, 255]], .int 7]) = .ok k ∧
      Key.ofValue (.list [.text "a\x00", .list [.int (-3), .bytes [0, 255, 0]]]) = .ok l ∧
      Ord.compare
        ([80, 48, 97, 0, 255, 0, 0, 80, 16, 63, 247, 255, 255, 255, 255, 255, 255, 64, 0, 255, 255,
          0, 0, 0, 16, 192, 28, 0, 0, 0, 0, 0, 0, 0] : Bytes)
        [80, 48, 97, 0, 255, 0, 0, 80, 16, 63, 247, 255, 255, 255, 255, 255, 255, 64, 0, 255, 255,
          0, 255, 0, 0, 0, 0] = k.compare l ∧
      Value.compareKeys (.list [.text "a\x00", .list [.int (-3), .bytes [0, 255]], .int 7])
        (.list [.text "a\x00", .list [.int (-3), .bytes [0, 255, 0]]]) = .ok (k.compare l) ∧
      (([80, 48, 97, 0, 255, 0, 0, 80, 16, 63, 247, 255, 255, 255, 255, 255, 255, 64, 0, 255, 255,
          0, 0, 0, 16, 192, 28, 0, 0, 0, 0, 0, 0, 0] : Bytes) =
        [80, 48, 97, 0, 255, 0, 0, 80, 16, 63, 247, 255, 255, 255, 255, 255, 255, 64, 0, 255, 255,
          0, 255, 0, 0, 0, 0] ↔ k.compare l = .eq) :=
  Value.encodeKey_order (eq_ok_of_toOption (by decide +kernel))
    (eq_ok_of_toOption (by decide +kernel))

end RecordStore
