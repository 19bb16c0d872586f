import Mathlib.Data.UInt
import RecordStore.Key.Encoding

/-!
The order of rows of bytes, and of the parts that encoded keys are made of: words of eight bytes,
escaped content, and the characters of UTF-8. Each statement has arbitrary bytes after the parts:
the parts decide the order unless they are equal, and then what follows decides it.
-/

namespace RecordStore
namespace Bytes

theorem lt_eq_true_iff {a b : Bytes} : lt a b = true ↔ Ord.compare a b = .lt := by
  induction a generalizing b with
  | nil =>
      cases b with
      | nil => simp [lt]
      | cons y ys => simp [lt, List.compare_nil_cons]
  | cons x xs ih =>
      cases b with
      | nil => simp [lt, List.compare_cons_nil]
      | cons y ys =>
          rw [List.compare_cons_cons, Ordering.then_eq_lt, Std.compare_eq_lt,
            Std.LawfulEqOrd.compare_eq_iff_eq, ← ih]
          simp [lt]

/-- The order of bytes is the lexicographic one. -/
theorem compare_eq_ord (a b : Bytes) : a.compare b = Ord.compare a b := by
  rw [Bytes.compare]
  split
  · next h => rw [h, Std.compare_self]
  · next hne =>
    split
    · next hlt => rw [lt_eq_true_iff.1 hlt]
    · next hlt =>
      rw [lt_eq_true_iff] at hlt
      cases h : Ord.compare a b with
      | lt => exact absurd h hlt
      | eq => exact absurd (Std.LawfulEqOrd.compare_eq_iff_eq.1 h) hne
      | gt => rfl

@[simp] theorem compare_self (a : Bytes) : a.compare a = .eq := if_pos rfl

theorem compare_eq_iff {a b : Bytes} : a.compare b = .eq ↔ a = b := by
  rw [compare_eq_ord, Std.LawfulEqOrd.compare_eq_iff_eq]

@[simp] theorem compare_nil_nil : compare [] [] = .eq := rfl

@[simp] theorem compare_nil_cons (b : UInt8) (bs : Bytes) : compare [] (b :: bs) = .lt := rfl

@[simp] theorem compare_cons_nil (b : UInt8) (bs : Bytes) : compare (b :: bs) [] = .gt := rfl

theorem compare_cons_cons (a b : UInt8) (as bs : Bytes) :
    compare (a :: as) (b :: bs) = (Ord.compare a.toNat b.toNat).then (compare as bs) := by
  rw [compare_eq_ord, compare_eq_ord, List.compare_cons_cons,
    UInt8.compare_eq_toNat_compare_toNat]

theorem compare_cons_self (a : UInt8) (as bs : Bytes) :
    compare (a :: as) (a :: bs) = compare as bs := by
  rw [compare_cons_cons, Std.compare_self, Ordering.eq_then]

theorem compare_cons_of_lt {a b : UInt8} (h : a.toNat < b.toNat) (as bs : Bytes) :
    compare (a :: as) (b :: bs) = .lt := by
  rw [compare_cons_cons, Nat.compare_eq_lt.2 h, Ordering.lt_then]

theorem compare_cons_of_gt {a b : UInt8} (h : b.toNat < a.toNat) (as bs : Bytes) :
    compare (a :: as) (b :: bs) = .gt := by
  rw [compare_cons_cons, Nat.compare_eq_gt.2 h, Ordering.gt_then]

end Bytes

/-! ### Digits -/

/-- Numbers are compared by their leading part first. -/
theorem compare_digit {m q q' r r' : Nat} (hr : r < m) (hr' : r' < m) :
    (compare q q').then (compare r r') = compare (q * m + r) (q' * m + r') := by
  rcases lt_trichotomy q q' with h | rfl | h
  · have hle : (q + 1) * m ≤ q' * m := Nat.mul_le_mul_right m h
    rw [Nat.succ_mul] at hle
    rw [Nat.compare_eq_lt.2 h, Ordering.lt_then, Nat.compare_eq_lt.2 (by omega)]
  · rw [Nat.compare_eq_eq.2 rfl, Ordering.eq_then]
    rcases lt_trichotomy r r' with h | rfl | h
    · rw [Nat.compare_eq_lt.2 h, Nat.compare_eq_lt.2 (by omega)]
    · rw [Nat.compare_eq_eq.2 rfl, Nat.compare_eq_eq.2 rfl]
    · rw [Nat.compare_eq_gt.2 h, Nat.compare_eq_gt.2 (by omega)]
  · have hle : (q' + 1) * m ≤ q * m := Nat.mul_le_mul_right m h
    rw [Nat.succ_mul] at hle
    rw [Nat.compare_eq_gt.2 h, Ordering.gt_then, Nat.compare_eq_gt.2 (by omega)]

namespace Key

/-! ### Words -/

/-- The last `n` bytes of a word, the most significant first. -/
def lowBytes (w : Nat) : Nat → Bytes
  | 0 => []
  | n + 1 => UInt8.ofNat (w / 256 ^ n) :: lowBytes w n

theorem wordBytes_eq_lowBytes (w : Nat) : wordBytes w = lowBytes w 8 := rfl

@[simp] theorem length_lowBytes (w n : Nat) : (lowBytes w n).length = n := by
  induction n with
  | zero => rfl
  | succ n ih => rw [lowBytes, List.length_cons, ih]

@[simp] theorem length_wordBytes (w : Nat) : (wordBytes w).length = 8 := rfl

theorem mod_pow_succ (w n : Nat) :
    w % 256 ^ (n + 1) = w / 256 ^ n % 256 * 256 ^ n + w % 256 ^ n := by
  rw [pow_succ, Nat.mod_mul, Nat.mul_comm, Nat.add_comm]

theorem compare_lowBytes (w w' n : Nat) (s t : Bytes) :
    (lowBytes w n ++ s).compare (lowBytes w' n ++ t) =
      (compare (w % 256 ^ n) (w' % 256 ^ n)).then (s.compare t) := by
  induction n with
  | zero => simp [lowBytes, Nat.mod_one]
  | succ n ih =>
      have hpos : 0 < 256 ^ n := Nat.pow_pos (by decide)
      rw [lowBytes, lowBytes, List.cons_append, List.cons_append, Bytes.compare_cons_cons, ih,
        UInt8.toNat_ofNat', UInt8.toNat_ofNat', ← Ordering.then_assoc,
        compare_digit (Nat.mod_lt _ hpos) (Nat.mod_lt _ hpos), ← mod_pow_succ, ← mod_pow_succ]

theorem compare_wordBytes {w w' : Nat} (hw : w < 2 ^ 64) (hw' : w' < 2 ^ 64) (s t : Bytes) :
    (wordBytes w ++ s).compare (wordBytes w' ++ t) = (compare w w').then (s.compare t) := by
  rw [wordBytes_eq_lowBytes, wordBytes_eq_lowBytes, compare_lowBytes,
    Nat.mod_eq_of_lt (by omega), Nat.mod_eq_of_lt (by omega)]

/-! ### Escaped content -/

theorem toNat_pos_of_ne_zero {b : UInt8} (h : b ≠ 0) : (0 : UInt8).toNat < b.toNat :=
  Nat.pos_of_ne_zero fun hb => h (UInt8.toNat_inj.1 hb)

theorem compare_escape (a b s t : Bytes) :
    (escape a ++ s).compare (escape b ++ t) = (a.compare b).then (s.compare t) := by
  induction a generalizing b with
  | nil =>
      cases b with
      | nil => simp [escape, Bytes.compare_cons_self]
      | cons y ys =>
          rw [Bytes.compare_nil_cons, Ordering.lt_then]
          by_cases hy : y = 0
          · simp only [escape, hy, if_true, List.cons_append, Bytes.compare_cons_self]
            exact Bytes.compare_cons_of_lt (by decide) _ _
          · simp only [escape, hy, if_false, List.cons_append]
            exact Bytes.compare_cons_of_lt (toNat_pos_of_ne_zero hy) _ _
  | cons x xs ih =>
      cases b with
      | nil =>
          rw [Bytes.compare_cons_nil, Ordering.gt_then]
          by_cases hx : x = 0
          · simp only [escape, hx, if_true, List.cons_append, Bytes.compare_cons_self]
            exact Bytes.compare_cons_of_gt (by decide) _ _
          · simp only [escape, hx, if_false, List.cons_append]
            exact Bytes.compare_cons_of_gt (toNat_pos_of_ne_zero hx) _ _
      | cons y ys =>
          rw [Bytes.compare_cons_cons, Ordering.then_assoc, ← ih]
          by_cases hx : x = 0 <;> by_cases hy : y = 0 <;>
            simp only [escape, hx, hy, if_true, if_false, List.cons_append,
              Bytes.compare_cons_cons, Std.compare_self, Ordering.eq_then]
          · simp only [Nat.compare_eq_lt.2 (toNat_pos_of_ne_zero hy), Ordering.lt_then]
          · simp only [Nat.compare_eq_gt.2 (toNat_pos_of_ne_zero hx), Ordering.gt_then]

end Key

namespace Utf8

/-! ### Characters -/

/-- The characters of a text by their numbers. -/
def codePoints (s : String) : List Nat := s.toList.map Char.toNat

/-- The bytes of the number of a character, the leading byte first. -/
theorem utf8EncodeChar_cases (c : Char) :
    (c.toNat < 0x80 ∧ String.utf8EncodeChar c = [UInt8.ofNat c.toNat]) ∨
    (0x80 ≤ c.toNat ∧ c.toNat < 0x800 ∧ String.utf8EncodeChar c =
      [UInt8.ofNat (c.toNat / 64 + 0xc0), UInt8.ofNat (c.toNat % 64 + 0x80)]) ∨
    (0x800 ≤ c.toNat ∧ c.toNat < 0x10000 ∧ String.utf8EncodeChar c =
      [UInt8.ofNat (c.toNat / 64 / 64 + 0xe0), UInt8.ofNat (c.toNat / 64 % 64 + 0x80),
        UInt8.ofNat (c.toNat % 64 + 0x80)]) ∨
    (0x10000 ≤ c.toNat ∧ c.toNat < 0x110000 ∧ String.utf8EncodeChar c =
      [UInt8.ofNat (c.toNat / 64 / 64 / 64 + 0xf0), UInt8.ofNat (c.toNat / 64 / 64 % 64 + 0x80),
        UInt8.ofNat (c.toNat / 64 % 64 + 0x80), UInt8.ofNat (c.toNat % 64 + 0x80)]) := by
  have hv : c.toNat < 0x110000 := by
    have := c.valid
    simp only [UInt32.isValidChar, Nat.isValidChar] at this
    simp only [Char.toNat]
    omega
  simp only [String.utf8EncodeChar, show c.val.toNat = c.toNat from rfl]
  by_cases h1 : c.toNat ≤ 0x7f
  · exact .inl ⟨by omega, by rw [if_pos h1]⟩
  by_cases h2 : c.toNat ≤ 0x7ff
  · refine .inr (.inl ⟨by omega, by omega, ?_⟩)
    rw [if_neg h1, if_pos h2, Nat.mod_eq_of_lt (a := c.toNat / 64) (by omega)]
  by_cases h3 : c.toNat ≤ 0xffff
  · refine .inr (.inr (.inl ⟨by omega, by omega, ?_⟩))
    rw [if_neg h1, if_neg h2, if_pos h3, Nat.div_div_eq_div_mul,
      Nat.mod_eq_of_lt (a := c.toNat / 4096) (by omega)]
  · refine .inr (.inr (.inr ⟨by omega, hv, ?_⟩))
    rw [if_neg h1, if_neg h2, if_neg h3, Nat.div_div_eq_div_mul c.toNat 64 64,
      Nat.div_div_eq_div_mul c.toNat (64 * 64) 64,
      Nat.mod_eq_of_lt (a := c.toNat / 262144) (by omega)]

theorem compare_ofNat_cons {m n : Nat} (hm : m < 256) (hn : n < 256) (s t : Bytes) :
    Bytes.compare (UInt8.ofNat m :: s) (UInt8.ofNat n :: t) =
      (compare m n).then (s.compare t) := by
  rw [Bytes.compare_cons_cons, UInt8.toNat_ofNat', UInt8.toNat_ofNat', Nat.mod_eq_of_lt hm,
    Nat.mod_eq_of_lt hn]

theorem compare_add_right (m n k : Nat) : compare (m + k) (n + k) = compare m n := by
  simp only [Nat.compare_eq_ite_lt, Nat.add_lt_add_iff_right]

/-- The last digit in base 64, held by a continuation byte. -/
theorem compare_sextet (m n : Nat) :
    (compare (m / 64) (n / 64)).then (compare (m % 64 + 0x80) (n % 64 + 0x80)) = compare m n := by
  rw [compare_add_right, compare_digit (Nat.mod_lt _ (by decide)) (Nat.mod_lt _ (by decide)),
    Nat.div_add_mod', Nat.div_add_mod']

/-- A smaller number is led by a smaller byte if it takes fewer bytes, and else the bytes are its
digits. -/
theorem compare_encodeChar (c d : Char) (s t : Bytes) :
    Bytes.compare (String.utf8EncodeChar c ++ s) (String.utf8EncodeChar d ++ t) =
      (compare c.toNat d.toNat).then (s.compare t) := by
  have hlt {m n : Nat} (hm : m < n) (hn : n < 256) (x y : Nat) (hxy : x < y) (u v : Bytes) :
      Bytes.compare (UInt8.ofNat m :: u) (UInt8.ofNat n :: v) =
        (compare x y).then (s.compare t) := by
    rw [compare_ofNat_cons (by omega) hn, Nat.compare_eq_lt.2 hm, Nat.compare_eq_lt.2 hxy]
    rfl
  have hgt {m n : Nat} (hm : n < m) (hn : m < 256) (x y : Nat) (hxy : y < x) (u v : Bytes) :
      Bytes.compare (UInt8.ofNat m :: u) (UInt8.ofNat n :: v) =
        (compare x y).then (s.compare t) := by
    rw [compare_ofNat_cons hn (by omega), Nat.compare_eq_gt.2 hm, Nat.compare_eq_gt.2 hxy]
    rfl
  rcases utf8EncodeChar_cases c with ⟨hc, ec⟩ | ⟨hc, hc', ec⟩ | ⟨hc, hc', ec⟩ | ⟨hc, hc', ec⟩
  · rcases utf8EncodeChar_cases d with ⟨hd, ed⟩ | ⟨hd, hd', ed⟩ | ⟨hd, hd', ed⟩ | ⟨hd, hd', ed⟩
    · rw [ec, ed]
      exact compare_ofNat_cons (by omega) (by omega) _ _
    all_goals
      rw [ec, ed]
      exact hlt (by omega) (by omega) _ _ (by omega) _ _
  · rcases utf8EncodeChar_cases d with ⟨hd, ed⟩ | ⟨hd, hd', ed⟩ | ⟨hd, hd', ed⟩ | ⟨hd, hd', ed⟩
    · rw [ec, ed]
      exact hgt (by omega) (by omega) _ _ (by omega) _ _
    · simp only [ec, ed, List.cons_append, List.nil_append]
      rw [compare_ofNat_cons (by omega) (by omega), compare_ofNat_cons (by omega) (by omega),
        ← Ordering.then_assoc, compare_add_right, compare_sextet]
    all_goals
      rw [ec, ed]
      exact hlt (by omega) (by omega) _ _ (by omega) _ _
  · rcases utf8EncodeChar_cases d with ⟨hd, ed⟩ | ⟨hd, hd', ed⟩ | ⟨hd, hd', ed⟩ | ⟨hd, hd', ed⟩
    · rw [ec, ed]
      exact hgt (by omega) (by omega) _ _ (by omega) _ _
    · rw [ec, ed]
      exact hgt (by omega) (by omega) _ _ (by omega) _ _
    · simp only [ec, ed, List.cons_append, List.nil_append]
      rw [compare_ofNat_cons (by omega) (by omega), compare_ofNat_cons (by omega) (by omega),
        compare_ofNat_cons (by omega) (by omega), compare_add_right, ← Ordering.then_assoc,
        compare_sextet, ← Ordering.then_assoc, compare_sextet]
    · rw [ec, ed]
      exact hlt (by omega) (by omega) _ _ (by omega) _ _
  · rcases utf8EncodeChar_cases d with ⟨hd, ed⟩ | ⟨hd, hd', ed⟩ | ⟨hd, hd', ed⟩ | ⟨hd, hd', ed⟩
    · rw [ec, ed]
      exact hgt (by omega) (by omega) _ _ (by omega) _ _
    · rw [ec, ed]
      exact hgt (by omega) (by omega) _ _ (by omega) _ _
    · rw [ec, ed]
      exact hgt (by omega) (by omega) _ _ (by omega) _ _
    · simp only [ec, ed, List.cons_append, List.nil_append]
      rw [compare_ofNat_cons (by omega) (by omega), compare_ofNat_cons (by omega) (by omega),
        compare_ofNat_cons (by omega) (by omega), compare_ofNat_cons (by omega) (by omega),
        compare_add_right, ← Ordering.then_assoc, compare_sextet, ← Ordering.then_assoc,
        compare_sextet, ← Ordering.then_assoc, compare_sextet]

theorem utf8EncodeChar_ne_nil (c : Char) : String.utf8EncodeChar c ≠ [] := by
  rcases utf8EncodeChar_cases c with ⟨_, ec⟩ | ⟨_, _, ec⟩ | ⟨_, _, ec⟩ | ⟨_, _, ec⟩ <;> simp [ec]

/-- Bytes of UTF-8 have the order of code points. -/
theorem compare_encodeChars (cs ds : List Char) :
    Bytes.compare (encodeChars cs) (encodeChars ds) =
      compare (cs.map Char.toNat) (ds.map Char.toNat) := by
  induction cs generalizing ds with
  | nil =>
      cases ds with
      | nil => rfl
      | cons d ds =>
          obtain ⟨b, bs, hb⟩ := List.exists_cons_of_ne_nil (utf8EncodeChar_ne_nil d)
          simp [encodeChars, hb, List.compare_nil_cons]
  | cons c cs ih =>
      cases ds with
      | nil =>
          obtain ⟨b, bs, hb⟩ := List.exists_cons_of_ne_nil (utf8EncodeChar_ne_nil c)
          simp [encodeChars, hb, List.compare_cons_nil]
      | cons d ds =>
          rw [List.map_cons, List.map_cons, List.compare_cons_cons, ← ih, ← compare_encodeChar]
          rfl

theorem compare_encode (s t : String) :
    Bytes.compare (encode s) (encode t) = compare (codePoints s) (codePoints t) :=
  compare_encodeChars _ _

end Utf8
end RecordStore
