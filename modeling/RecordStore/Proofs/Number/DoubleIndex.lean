import Mathlib.Order.Monotone.Basic
import Mathlib.Tactic.Ring
import RecordStore.Number.Double

/-!
Indices of doubles and the magnitudes they stand for. A double is its sign and its index, and the
magnitude grows strictly with the index; so the order of values can be read off the patterns, and a
value that some pattern has is rounded to just that pattern.
-/

namespace RecordStore
namespace Double

/-! ### Sign and index -/

theorem word_lt (x : Double) : x.word < 2 ^ 64 := x.bits.toNat_lt

theorem index_lt (x : Double) : x.index < 2 ^ 63 := Nat.mod_lt _ (by decide)

theorem word_eq (x : Double) : x.word = x.index + if x.isNegative then 2 ^ 63 else 0 := by
  have h := x.word_lt
  by_cases hn : 2 ^ 63 ≤ x.word
  · simp only [index, isNegative, hn, decide_true, if_true]
    omega
  · simp only [index, isNegative, hn, decide_false, Bool.false_eq_true, if_false]
    omega

theorem ext_word {x y : Double} (h : x.word = y.word) : x = y := by
  cases x
  cases y
  simpa [word, UInt64.toNat_inj] using h

theorem ext_index {x y : Double} (hs : x.isNegative = y.isNegative) (hi : x.index = y.index) :
    x = y := by
  apply ext_word
  rw [word_eq x, word_eq y, hs, hi]

@[simp] theorem word_ofIndex {i : Nat} (negative : Bool) (h : i < 2 ^ 63) :
    (ofIndex negative i).word = i + if negative then 2 ^ 63 else 0 := by
  simp only [word, ofIndex, UInt64.toNat_ofNat']
  apply Nat.mod_eq_of_lt
  split <;> omega

@[simp] theorem index_ofIndex {i : Nat} (negative : Bool) (h : i < 2 ^ 63) :
    (ofIndex negative i).index = i := by
  rw [index, word_ofIndex negative h]
  split <;> omega

@[simp] theorem isNegative_ofIndex {i : Nat} (negative : Bool) (h : i < 2 ^ 63) :
    (ofIndex negative i).isNegative = negative := by
  rw [isNegative, word_ofIndex negative h]
  cases negative
  · simpa using h
  · simp

theorem ofIndex_index (x : Double) : ofIndex x.isNegative x.index = x :=
  ext_index (isNegative_ofIndex _ x.index_lt) (index_ofIndex _ x.index_lt)

theorem infinityIndex_lt : infinityIndex < 2 ^ 63 := by decide

theorem isFinite_iff {x : Double} : x.isFinite = true ↔ x.index < infinityIndex := by
  simp [isFinite]

theorem isNaN_eq_false_iff {x : Double} : x.isNaN = false ↔ x.index ≤ infinityIndex := by
  simp [isNaN]

theorem isInfinite_iff {x : Double} : x.isInfinite = true ↔ x.index = infinityIndex := by
  simp [isInfinite]

theorem isZero_iff {x : Double} : x.isZero = true ↔ x.index = 0 := by
  simp [isZero]

@[simp] theorem index_withoutNegativeZero (x : Double) : x.withoutNegativeZero.index = x.index := by
  rw [withoutNegativeZero]
  split
  · next h => rw [isZero_iff.1 h]; rfl
  · rfl

/-- Only a number other than zero keeps its sign. -/
theorem withoutNegativeZero_eq (x : Double) :
    x.withoutNegativeZero = ofIndex (x.isNegative && !x.isZero) x.index := by
  rw [withoutNegativeZero]
  split
  · next h => simp [h, isZero_iff.1 h, zero]
  · next h => simp [h, ofIndex_index]

@[simp] theorem withoutNegativeZero_withoutNegativeZero (x : Double) :
    x.withoutNegativeZero.withoutNegativeZero = x.withoutNegativeZero := by
  have hz : x.withoutNegativeZero.isZero = x.isZero := by
    rw [isZero, index_withoutNegativeZero, isZero]
  apply ext_index
  · rw [withoutNegativeZero_eq x.withoutNegativeZero, isNegative_ofIndex _ (index_lt _), hz,
      withoutNegativeZero_eq, isNegative_ofIndex _ (index_lt _), Bool.and_assoc, Bool.and_self]
  · rw [index_withoutNegativeZero]

/-! ### Magnitudes -/

theorem unitsOfIndex_of_lt {i : Nat} (h : i < 2 ^ 52) : unitsOfIndex i = i := if_pos h

/-- From the first full significand on, an index is an exponent and a fraction. -/
theorem unitsOfIndex_of_le {i : Nat} (h : 2 ^ 52 ≤ i) :
    unitsOfIndex i = (2 ^ 52 + i % 2 ^ 52) * 2 ^ (i / 2 ^ 52 - 1) :=
  if_neg (by omega)

theorem unitsOfIndex_lt_succ (i : Nat) : unitsOfIndex i < unitsOfIndex (i + 1) := by
  rcases lt_trichotomy (i + 1) (2 ^ 52) with h | h | h
  · rw [unitsOfIndex_of_lt h, unitsOfIndex_of_lt (by omega)]
    omega
  · rw [unitsOfIndex_of_lt (by omega), unitsOfIndex_of_le (by omega), h]
    have hone : (2 ^ 52 + 2 ^ 52 % 2 ^ 52) * 2 ^ (2 ^ 52 / 2 ^ 52 - 1) = 2 ^ 52 := by decide
    omega
  · rw [unitsOfIndex_of_le (by omega), unitsOfIndex_of_le (by omega)]
    have hpos : 0 < 2 ^ (i / 2 ^ 52 - 1) := Nat.two_pow_pos _
    by_cases hc : i % 2 ^ 52 + 1 < 2 ^ 52
    · -- the next fraction of the same binade
      have hq : (i + 1) / 2 ^ 52 = i / 2 ^ 52 := by omega
      have hr : (i + 1) % 2 ^ 52 = i % 2 ^ 52 + 1 := by omega
      rw [hq, hr]
      exact Nat.mul_lt_mul_of_pos_right (by omega) hpos
    · -- the carry into the next binade
      have hq : (i + 1) / 2 ^ 52 - 1 = (i / 2 ^ 52 - 1) + 1 := by omega
      have hr : (i + 1) % 2 ^ 52 = 0 := by omega
      rw [hq, hr, pow_succ]
      have hlt : (2 ^ 52 + i % 2 ^ 52) * 2 ^ (i / 2 ^ 52 - 1) < 2 ^ 53 * 2 ^ (i / 2 ^ 52 - 1) :=
        Nat.mul_lt_mul_of_pos_right (by omega) hpos
      calc (2 ^ 52 + i % 2 ^ 52) * 2 ^ (i / 2 ^ 52 - 1)
          < 2 ^ 53 * 2 ^ (i / 2 ^ 52 - 1) := hlt
        _ = (2 ^ 52 + 0) * (2 ^ (i / 2 ^ 52 - 1) * 2) := by ring

theorem unitsOfIndex_strictMono : StrictMono unitsOfIndex :=
  strictMono_nat_of_lt_succ unitsOfIndex_lt_succ

@[simp] theorem unitsOfIndex_zero : unitsOfIndex 0 = 0 := rfl

theorem unitsOfIndex_eq_zero_iff {i : Nat} : unitsOfIndex i = 0 ↔ i = 0 := by
  rw [← unitsOfIndex_strictMono.injective.eq_iff (a := i) (b := 0), unitsOfIndex_zero]

end Double
end RecordStore
