import Mathlib.Data.List.Induction
import Mathlib.Tactic.Ring
import RecordStore.Number.Decimal

/-!
Rows of decimal digits and the numbers they stand for.
-/

namespace RecordStore
namespace Decimal

theorem ofDigits_eq_ofDigitChars (cs : List Char) : ofDigits cs = Nat.ofDigitChars 10 cs 0 := by
  rw [ofDigits, Nat.ofDigitChars_eq_foldl]
  simp only [Nat.mul_comm]

@[simp] theorem ofDigits_nil : ofDigits [] = 0 := rfl

@[simp] theorem ofDigits_digitsOf (n : Nat) : ofDigits (digitsOf n) = n := by
  rw [ofDigits_eq_ofDigitChars, digitsOf, Nat.ofDigitChars_toDigits (by decide) (by decide)]

theorem ofDigits_append (as bs : List Char) :
    ofDigits (as ++ bs) = ofDigits as * 10 ^ bs.length + ofDigits bs := by
  rw [ofDigits_eq_ofDigitChars, Nat.ofDigitChars_append, Nat.ofDigitChars_eq_ofDigitChars_zero,
    ofDigits_eq_ofDigitChars, ofDigits_eq_ofDigitChars, Nat.mul_comm]

@[simp] theorem ofDigits_replicate_zero (n : Nat) : ofDigits (List.replicate n '0') = 0 := by
  rw [ofDigits_eq_ofDigitChars, Nat.ofDigitChars_replicate_zero, Nat.mul_zero]

theorem ofDigits_zeros_append (n : Nat) (cs : List Char) :
    ofDigits (List.replicate n '0' ++ cs) = ofDigits cs := by
  rw [ofDigits_append, ofDigits_replicate_zero, Nat.zero_mul, Nat.zero_add]

theorem ofDigits_append_zeros (cs : List Char) (n : Nat) :
    ofDigits (cs ++ List.replicate n '0') = ofDigits cs * 10 ^ n := by
  rw [ofDigits_append, ofDigits_replicate_zero, List.length_replicate, Nat.add_zero]

/-- A row of digits stands for less than the power of ten of its length. -/
theorem ofDigits_lt {digits : List Char} (h : ∀ c ∈ digits, c.isDigit = true) :
    ofDigits digits < 10 ^ digits.length := by
  induction digits using List.reverseRecOn with
  | nil => exact Nat.one_pos
  | append_singleton cs c ih =>
      have hcs := ih fun d hd => h d (List.mem_append_left _ hd)
      have hc := h c (List.mem_append_right _ List.mem_cons_self)
      have hdigit : c.toNat ≤ 57 := by
        rw [Char.isDigit, Bool.and_eq_true, decide_eq_true_iff, decide_eq_true_iff] at hc
        exact UInt32.le_iff_toNat_le.1 hc.2
      have hlast : ofDigits [c] = c.toNat - 48 := Nat.zero_add _
      rw [ofDigits_append, hlast, List.length_append, List.length_singleton, pow_one,
        pow_succ]
      omega

theorem isDigit_of_mem_digitsOf {n : Nat} {c : Char} (h : c ∈ digitsOf n) : c.isDigit = true :=
  Nat.isDigit_of_mem_toDigits (by decide) (by decide) h

theorem digitsOf_ne_nil (n : Nat) : digitsOf n ≠ [] := Nat.toDigits_ne_nil

theorem length_digitsOf_pos (n : Nat) : 0 < (digitsOf n).length := Nat.length_toDigits_pos

theorem length_digitsOf_le_iff {n k : Nat} (h : 0 < k) : (digitsOf n).length ≤ k ↔ n < 10 ^ k :=
  Nat.length_toDigits_le_iff (by decide) h

/-- Only zero is written with a zero in front. -/
theorem head?_digitsOf {n : Nat} (h : n ≠ 0) : (digitsOf n).head? ≠ some '0' := by
  induction n using Nat.strongRecOn with
  | ind n ih =>
      rw [digitsOf, Nat.toDigits_eq_if (by decide)]
      split
      · rw [List.head?_cons, Ne, Option.some.injEq, Nat.digitChar_eq_zero]
        exact h
      · next hn =>
        obtain ⟨c, cs, hc⟩ := List.exists_cons_of_ne_nil (digitsOf_ne_nil (n / 10))
        have hih := ih (n / 10) (by omega) (by omega)
        rw [digitsOf] at hc hih
        rwa [hc, List.cons_append, List.head?_cons, ← List.head?_cons (l := cs), ← hc]

/-- Zeros at the end count as digits. -/
theorem length_digitsOf_mul {n : Nat} (h : n ≠ 0) (k : Nat) :
    (digitsOf (n * 10 ^ k)).length = (digitsOf n).length + k := by
  have hiff {j : Nat} (hj : 0 < j) :
      (digitsOf (n * 10 ^ k)).length ≤ j + k ↔ (digitsOf n).length ≤ j := by
    rw [length_digitsOf_le_iff (by omega), length_digitsOf_le_iff hj, pow_add,
      Nat.mul_lt_mul_right (Nat.pow_pos (by decide))]
  have hle := (hiff (length_digitsOf_pos n)).2 le_rfl
  have hge : ¬(digitsOf (n * 10 ^ k)).length ≤ (digitsOf n).length - 1 + k := by
    by_cases h1 : (digitsOf n).length = 1
    · rw [h1, Nat.sub_self, Nat.zero_add]
      by_cases hk : k = 0
      · have := length_digitsOf_pos (n * 10 ^ k)
        omega
      · have hpos : 0 < 10 ^ k := Nat.pow_pos (by decide)
        rw [length_digitsOf_le_iff (by omega), Nat.not_lt]
        exact Nat.le_mul_of_pos_left _ (by omega)
    · have := length_digitsOf_pos n
      rw [hiff (by omega)]
      omega
  have := length_digitsOf_pos n
  omega

end Decimal
end RecordStore
