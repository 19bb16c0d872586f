import RecordStore.Proofs.Number.DoubleOrder

/-!
Whole numbers among doubles. Up to 2⁵³ each of them is a value, so a number that is rounded or cut
down from an integer or a fraction below one of them stays below it.
-/

namespace RecordStore
namespace Double

theorem unitsPerOne_eq : unitsPerOne = 2 ^ 1074 := by
  rw [unitsPerOne, ← pow_mul]

/-- A whole number up to 2⁵³ is the value of an index. -/
theorem exists_unitsOfIndex_eq {n : Nat} (h : n ≤ 2 ^ 53) :
    ∃ i < infinityIndex, unitsOfIndex i = n * unitsPerOne := by
  by_cases hn : n = 0
  · exact ⟨0, by decide, by rw [hn, unitsOfIndex_zero, Nat.zero_mul]⟩
  by_cases hmax : n = 2 ^ 53
  · exact ⟨1076 * 2 ^ 52, by decide, by rw [hmax]; decide +kernel⟩
  · -- the significand of `n` has 53 bits, of which the leading one is left out of the index
    have hlog : n.log2 < 53 := (Nat.log2_lt hn).2 (by omega)
    obtain ⟨hle, hlt⟩ := (Nat.log2_eq_iff hn).1 rfl
    generalize n.log2 = l at hlog hle hlt
    have hpos : 0 < 2 ^ (52 - l) := Nat.two_pow_pos _
    have hlow : 2 ^ 52 ≤ n * 2 ^ (52 - l) := by
      calc 2 ^ 52 = 2 ^ l * 2 ^ (52 - l) := by rw [← pow_add]; congr 1; omega
        _ ≤ n * 2 ^ (52 - l) := Nat.mul_le_mul_right _ hle
    have hhigh : n * 2 ^ (52 - l) < 2 ^ 53 := by
      calc n * 2 ^ (52 - l) < 2 ^ (l + 1) * 2 ^ (52 - l) := Nat.mul_lt_mul_of_pos_right hlt hpos
        _ = 2 ^ 53 := by rw [← pow_add]; congr 1; omega
    have hunits : n * 2 ^ (52 - l) * 2 ^ (l + 1022) = n * unitsPerOne := by
      have hexponent : 52 - l + (l + 1022) = 1074 := by omega
      rw [unitsPerOne_eq, Nat.mul_assoc, ← pow_add, hexponent]
    generalize n * 2 ^ (52 - l) = significand at hlow hhigh hunits
    refine ⟨(l + 1023) * 2 ^ 52 + (significand - 2 ^ 52), ?_, ?_⟩
    · rw [infinityIndex]
      omega
    · have hsignificand : 2 ^ 52 + ((l + 1023) * 2 ^ 52 + (significand - 2 ^ 52)) % 2 ^ 52 =
          significand := by omega
      have hexponent : ((l + 1023) * 2 ^ 52 + (significand - 2 ^ 52)) / 2 ^ 52 - 1 = l + 1022 := by
        omega
      rw [unitsOfIndex_of_le (by omega), hsignificand, hexponent, hunits]

/-- The value of a number is below that of a whole number. -/
def IsBelow (x : Double) (n : Nat) : Prop :=
  x.extended < (((n * unitsPerOne : Int) : WithTop Int) : WithBot (WithTop Int))

theorem isBelow_of_isFinite {x : Double} {n : Nat} (hx : x.isFinite = true)
    (h : x.units < n * unitsPerOne) : x.IsBelow n := by
  have hinf : ¬x.isInfinite = true := by
    rw [isInfinite_iff]
    exact (isFinite_iff.1 hx).ne
  rw [IsBelow, extended, if_neg hinf]
  exact WithBot.coe_lt_coe.2 (WithTop.coe_lt_coe.2 h)

theorem units_nonpos {x : Double} (h : x.isNegative = true) : x.units ≤ 0 := by
  rw [units, if_pos h]
  omega

/-- A whole number up to 2⁵³ is not rounded. -/
theorem exists_ofInt?_eq {n : Nat} (h : n ≤ 2 ^ 53) : ∃ x, ofInt? n = some x ∧
    x.isFinite = true ∧ x.units = n * unitsPerOne := by
  obtain ⟨i, hi, hunits⟩ := exists_unitsOfIndex_eq h
  have hi' : i < 2 ^ 63 := lt_trans hi infinityIndex_lt
  have hfinite : (ofIndex false i).isFinite = true := isFinite_iff.2 (by rwa [index_ofIndex _ hi'])
  have hvalue : (ofIndex false i).units = n * unitsPerOne := by
    rw [units, isNegative_ofIndex _ hi', index_ofIndex _ hi', if_neg Bool.false_ne_true, hunits]
    exact Int.natCast_mul _ _
  have hsame : (ofIndex false i).withoutNegativeZero = ofIndex false i := by
    rw [withoutNegativeZero_eq, isNegative_ofIndex _ hi', Bool.false_and, index_ofIndex _ hi']
  exact ⟨_, hsame ▸ ofInt?_of_units_eq hfinite hvalue, hfinite, hvalue⟩

/-- What an integer is rounded to is below every positive whole number above the integer, up to
2⁵³. -/
theorem isBelow_of_ofInt? {k : Int} {x : Double} {n : Nat} (hx : ofInt? k = some x) (hn : 0 < n)
    (h : k < n) (hle : n ≤ 2 ^ 53) : x.IsBelow n := by
  have hpos : (0 : Int) < unitsPerOne := by exact_mod_cast unitsPerOne_pos
  by_cases hk : k < 0
  · -- a negative integer is rounded to a number with its sign
    have hnegative : x.isNegative = true := by
      simp only [ofInt?] at hx
      split at hx
      · cases hx
      · cases hx
        rw [ofRatio, ofUnitsRatio, isNegative_ofIndex _ (lt_of_le_of_lt (Nat.min_le_right _ _)
          infinityIndex_lt), decide_eq_true hk]
    refine isBelow_of_isFinite (isFinite_of_ofInt? hx) (lt_of_le_of_lt (units_nonpos hnegative) ?_)
    exact Int.mul_pos (by omega) hpos
  · obtain ⟨m, rfl⟩ := Int.eq_ofNat_of_zero_le (Int.not_lt.1 hk)
    obtain ⟨y, hy, hfinite, hunits⟩ := exists_ofInt?_eq (n := m) (by omega)
    cases hx.symm.trans hy
    refine isBelow_of_isFinite hfinite ?_
    rw [hunits]
    exact Int.mul_lt_mul_of_pos_right h hpos

theorem not_isBelow_of_ofInt? {x : Double} {n : Nat} (hx : ofInt? n = some x) (hle : n ≤ 2 ^ 53) :
    ¬x.IsBelow n := by
  obtain ⟨y, hy, hfinite, hunits⟩ := exists_ofInt?_eq hle
  cases hx.symm.trans hy
  have hinf : ¬x.isInfinite = true := by
    rw [isInfinite_iff]
    exact (isFinite_iff.1 hfinite).ne
  rw [IsBelow, extended, if_neg hinf, hunits]
  exact lt_irrefl _

/-- A finite number is below every positive whole number above its value without the fraction. -/
theorem isBelow_of_truncate {x : Double} {n : Nat} (hx : x.isFinite = true) (hn : 0 < n)
    (h : x.truncate < n) : x.IsBelow n := by
  have hpos : (0 : Int) < unitsPerOne := by exact_mod_cast unitsPerOne_pos
  refine isBelow_of_isFinite hx ?_
  rw [truncate] at h
  by_cases hneg : x.units < 0
  · have : 0 < (n : Int) * unitsPerOne := Int.mul_pos (by omega) hpos
    omega
  · rw [Int.tdiv_eq_ediv_of_nonneg (by omega)] at h
    exact (Int.ediv_lt_iff_lt_mul hpos).1 h

end Double
end RecordStore
