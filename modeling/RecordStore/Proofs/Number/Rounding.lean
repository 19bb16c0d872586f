import RecordStore.Proofs.Number.DoubleIndex

/-!
Rounding to doubles. The rounded pattern depends on a ratio alone, not on the fraction that it is
written as; a ratio that some pattern has is rounded to that pattern, and so whole numbers up to 2⁵³
are kept.
-/

namespace RecordStore
namespace Double

/-! ### Rounding a quotient -/

theorem roundDiv_mul_right (m : Nat) {den : Nat} (hd : 0 < den) : roundDiv (m * den) den = m := by
  have hr : m * den % den = 0 := Nat.mul_mod_left m den
  simp only [roundDiv, hr, Nat.mul_div_cancel m hd]
  exact if_pos (by omega)

theorem roundDiv_scale (num den : Nat) {c : Nat} (hc : 0 < c) :
    roundDiv (num * c) (den * c) = roundDiv num den := by
  have hlt (a b : Nat) : a * c < b * c ↔ a < b := Nat.mul_lt_mul_right hc
  simp only [roundDiv, Nat.mul_div_mul_right _ _ hc, Nat.mul_mod_mul_right]
  rw [← Nat.mul_assoc]
  simp only [hlt]

theorem nearestIndex_scale (num den : Nat) {c : Nat} (hc : 0 < c) :
    nearestIndex (num * c) (den * c) = nearestIndex num den := by
  simp only [nearestIndex, Nat.mul_div_mul_right _ _ hc]
  rw [show den * c * 2 ^ ((num / den).log2 - 52) = den * 2 ^ ((num / den).log2 - 52) * c by ring,
    roundDiv_scale _ _ hc]

theorem ofUnitsRatio_scale (negative : Bool) (num den : Nat) {c : Nat} (hc : 0 < c) :
    ofUnitsRatio negative (num * c) (den * c) = ofUnitsRatio negative num den := by
  rw [ofUnitsRatio, nearestIndex_scale _ _ hc, ofUnitsRatio]

theorem ofRatio_scale (negative : Bool) (num den : Nat) {c : Nat} (hc : 0 < c) :
    ofRatio negative (num * c) (den * c) = ofRatio negative num den := by
  rw [ofRatio, show unitsPerOne * (num * c) = unitsPerOne * num * c by ring,
    ofUnitsRatio_scale _ _ _ hc, ofRatio]

/-- The same ratio is rounded to the same number. -/
theorem ofRatio_congr (negative : Bool) {num den num' den' : Nat} (hd : 0 < den) (hd' : 0 < den')
    (h : num * den' = num' * den) : ofRatio negative num den = ofRatio negative num' den' := by
  rw [← ofRatio_scale negative num den hd', ← ofRatio_scale negative num' den' hd, h,
    Nat.mul_comm den den']

/-! ### Exact values -/

theorem log2_unitsOfIndex {i : Nat} (h : 2 ^ 52 ≤ i) :
    (unitsOfIndex i).log2 = 52 + (i / 2 ^ 52 - 1) := by
  have hpos : 0 < 2 ^ (i / 2 ^ 52 - 1) := Nat.two_pow_pos _
  rw [Nat.log2_eq_iff (by rw [Ne, unitsOfIndex_eq_zero_iff]; omega), unitsOfIndex_of_le h]
  constructor
  · rw [pow_add]
    exact Nat.mul_le_mul_right _ (by omega)
  · rw [show 52 + (i / 2 ^ 52 - 1) + 1 = 53 + (i / 2 ^ 52 - 1) by omega, pow_add]
    exact Nat.mul_lt_mul_of_pos_right (by omega) hpos

/-- A magnitude is rounded to the index that has it. -/
theorem nearestIndex_unitsOfIndex (i : Nat) {den : Nat} (hd : 0 < den) :
    nearestIndex (unitsOfIndex i * den) den = i := by
  simp only [nearestIndex, Nat.mul_div_cancel _ hd]
  by_cases h : i < 2 ^ 52
  · have hlog : i.log2 < 52 := by
      by_cases h0 : i = 0
      · simp [h0]
      · exact (Nat.log2_lt h0).2 h
    rw [unitsOfIndex_of_lt h, show i.log2 - 52 = 0 by omega, pow_zero, Nat.mul_one,
      roundDiv_mul_right _ hd]
    omega
  · have hle : 2 ^ 52 ≤ i := by omega
    rw [log2_unitsOfIndex hle, Nat.add_sub_cancel_left, unitsOfIndex_of_le hle,
      Nat.mul_assoc, Nat.mul_comm _ den, roundDiv_mul_right _ (Nat.mul_pos hd (Nat.two_pow_pos _))]
    omega

theorem unitsPerOne_pos : 0 < unitsPerOne := Nat.pow_pos (Nat.two_pow_pos _)

/-- A ratio that is the magnitude of an index below the infinities is rounded to just it. -/
theorem ofUnitsRatio_unitsOfIndex (negative : Bool) {i den : Nat} (hi : i ≤ infinityIndex)
    (hd : 0 < den) : ofUnitsRatio negative (unitsOfIndex i * den) den = ofIndex negative i := by
  rw [ofUnitsRatio, nearestIndex_unitsOfIndex i hd, Nat.min_eq_left hi]

/-- A rounded number is no NaN. -/
theorem index_ofUnitsRatio_le (negative : Bool) (num den : Nat) :
    (ofUnitsRatio negative num den).index ≤ infinityIndex := by
  have hle : min (nearestIndex num den) infinityIndex ≤ infinityIndex := Nat.min_le_right _ _
  rw [ofUnitsRatio, index_ofIndex negative (lt_of_le_of_lt hle infinityIndex_lt)]
  exact hle

theorem isNaN_ofUnitsRatio (negative : Bool) (num den : Nat) :
    (ofUnitsRatio negative num den).isNaN = false :=
  isNaN_eq_false_iff.2 (index_ofUnitsRatio_le negative num den)

theorem isNaN_of_ofInt? {n : Int} {x : Double} (h : ofInt? n = some x) : x.isNaN = false := by
  simp only [ofInt?] at h
  split at h
  · cases h
  · cases h
    exact isNaN_ofUnitsRatio _ _ _

theorem isFinite_of_ofInt? {n : Int} {x : Double} (h : ofInt? n = some x) : x.isFinite = true := by
  have hnan := isNaN_eq_false_iff.1 (isNaN_of_ofInt? h)
  simp only [ofInt?] at h
  split at h
  · cases h
  · next hinf =>
    cases h
    rw [isInfinite_iff] at hinf
    exact isFinite_iff.2 (lt_of_le_of_ne hnan hinf)

/-! ### Whole numbers -/

theorem natAbs_units (x : Double) : x.units.natAbs = unitsOfIndex x.index := by
  rw [units]
  split <;> simp

theorem units_neg_iff {x : Double} : x.units < 0 ↔ x.isNegative = true ∧ x.index ≠ 0 := by
  have hz := unitsOfIndex_eq_zero_iff (i := x.index)
  rw [units]
  split
  · simp_all
    omega
  · simp_all

/-- A number whose value is an integer is what the integer is rounded to, the sign of zero apart. -/
theorem ofInt?_of_units_eq {x : Double} {n : Int} (hx : x.isFinite = true)
    (h : x.units = n * unitsPerOne) : ofInt? n = some x.withoutNegativeZero := by
  have hi := isFinite_iff.1 hx
  have hpos : (0 : Int) < unitsPerOne := by exact_mod_cast unitsPerOne_pos
  have habs : unitsOfIndex x.index = n.natAbs * unitsPerOne := by
    rw [← natAbs_units, h, Int.natAbs_mul, Int.natAbs_natCast]
  have hsign : decide (n < 0) = (x.isNegative && !x.isZero) := by
    rw [Bool.eq_iff_iff, decide_eq_true_iff, Bool.and_eq_true, Bool.not_eq_true', ← Bool.not_eq_true,
      isZero_iff, ← units_neg_iff, h, Int.mul_neg_iff]
    omega
  have hround : ofRatio (n < 0) n.natAbs 1 = x.withoutNegativeZero := by
    rw [ofRatio, Nat.mul_comm, ← habs, ← Nat.mul_one (unitsOfIndex x.index),
      ofUnitsRatio_unitsOfIndex _ (by omega) Nat.one_pos, hsign, withoutNegativeZero_eq]
  have hfin : x.withoutNegativeZero.isInfinite = false := by
    rw [← Bool.not_eq_true, isInfinite_iff, index_withoutNegativeZero]
    omega
  simp only [ofInt?, hround, hfin, Bool.false_eq_true, if_false]

end Double
end RecordStore
