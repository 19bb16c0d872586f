import RecordStore.Proofs.Number.Digits
import RecordStore.Proofs.Number.Rounding

/-!
Decimals as doubles. What a decimal is read as depends on its value alone, so the zeros at its end
can be moved into the exponent; and the shortest decimal of a number is read as the number.
-/

namespace RecordStore
namespace Decimal

theorem ofRatio_eq_ofIndex (num den : Nat) :
    ∃ i ≤ Double.infinityIndex, ∀ negative, Double.ofRatio negative num den =
      Double.ofIndex negative i :=
  ⟨_, Nat.min_le_right _ _, fun _ => rfl⟩

/-- The sign of a decimal is the sign of what it is read as. -/
theorem toDouble_eq_ofIndex (d : Decimal) :
    ∃ i ≤ Double.infinityIndex, ∀ negative, d.toDouble negative = Double.ofIndex negative i := by
  by_cases h1 : d.digits = 0 ∨ d.pointPosition < -330
  · exact ⟨0, Nat.zero_le _, fun negative => by rw [toDouble, if_pos h1]⟩
  by_cases h2 : 310 < d.pointPosition
  · exact ⟨_, le_rfl, fun negative => by rw [toDouble, if_neg h1, if_pos h2]; rfl⟩
  by_cases h3 : 0 ≤ d.exponent
  · obtain ⟨i, hi, h⟩ := ofRatio_eq_ofIndex (d.digits * 10 ^ d.exponent.toNat) 1
    exact ⟨i, hi, fun negative => by rw [toDouble, if_neg h1, if_neg h2, if_pos h3, h]⟩
  · obtain ⟨i, hi, h⟩ := ofRatio_eq_ofIndex d.digits (10 ^ (-d.exponent).toNat)
    exact ⟨i, hi, fun negative => by rw [toDouble, if_neg h1, if_neg h2, if_neg h3, h]⟩

theorem toDouble_of_toDouble_false {d : Decimal} {i : Nat} (hi : i ≤ Double.infinityIndex)
    (h : d.toDouble false = Double.ofIndex false i) (negative : Bool) :
    d.toDouble negative = Double.ofIndex negative i := by
  have hinf := Double.infinityIndex_lt
  obtain ⟨j, hj, hd⟩ := toDouble_eq_ofIndex d
  have hij := congrArg Double.index ((hd false).symm.trans h)
  rw [Double.index_ofIndex _ (by omega), Double.index_ofIndex _ (by omega)] at hij
  rw [hd, hij]

theorem toDouble_zero (negative : Bool) (exponent : Int) :
    toDouble negative ⟨0, exponent⟩ = Double.ofIndex negative 0 := by
  rw [toDouble, if_pos (.inl rfl)]

/-- Zeros at the end of the digits can be moved into the exponent. -/
theorem toDouble_mul (negative : Bool) (n k : Nat) (exponent : Int) :
    toDouble negative ⟨n * 10 ^ k, exponent - k⟩ = toDouble negative ⟨n, exponent⟩ := by
  by_cases h0 : n = 0
  · rw [h0, Nat.zero_mul, toDouble_zero, toDouble_zero]
  have hk : n * 10 ^ k ≠ 0 := Nat.mul_ne_zero h0 (Nat.pow_pos (by decide)).ne'
  have hpoint : pointPosition ⟨n * 10 ^ k, exponent - k⟩ = pointPosition ⟨n, exponent⟩ := by
    simp only [pointPosition, length_digitsOf_mul h0]
    omega
  simp only [toDouble, hpoint, hk, h0, false_or]
  split
  · rfl
  split
  · rfl
  by_cases he : 0 ≤ exponent
  · rw [if_pos he]
    by_cases hek : 0 ≤ exponent - k
    · -- the exponent stays positive: the same whole number
      rw [if_pos hek, Nat.mul_assoc, ← pow_add,
        show k + (exponent - k).toNat = exponent.toNat by omega]
    · rw [if_neg hek]
      refine Double.ofRatio_congr _ (Nat.pow_pos (by decide)) Nat.one_pos ?_
      rw [Nat.mul_one, Nat.mul_assoc, ← pow_add,
        show exponent.toNat + (-(exponent - k)).toNat = k by omega]
  · rw [if_neg he, if_neg (show ¬0 ≤ exponent - (k : Int) by omega)]
    refine Double.ofRatio_congr _ (Nat.pow_pos (by decide)) (Nat.pow_pos (by decide)) ?_
    rw [Nat.mul_assoc, ← pow_add, show k + (-exponent).toNat = (-(exponent - k)).toNat by omega]

/-! ### The shortest decimal -/

theorem toDouble_of_neighbour? {x : Double} {point : Int} {count : Nat} {d : Decimal}
    (h : neighbour? x point count = some d) :
    d.toDouble false = Double.ofIndex false x.index := by
  simp only [neighbour?] at h
  split at h
  · cases h
  · next hlow _ =>
    cases h
    exact beq_iff_eq.1 hlow
  · next _ hhigh =>
    cases h
    exact beq_iff_eq.1 hhigh
  · next hlow hhigh =>
    split at h
    · cases h
      exact beq_iff_eq.1 hlow
    · cases h
      exact beq_iff_eq.1 hhigh

theorem unitsPerOne_eq : Double.unitsPerOne = 2 ^ 1074 := by rw [Double.unitsPerOne, ← pow_mul]

theorem ten_pow_eq (n : Nat) : 10 ^ n = 2 ^ n * 5 ^ n := mul_pow 2 5 n

theorem five_pow_ge : 10 ^ 743 ≤ 5 ^ 1074 := by decide +kernel

theorem unitsOfIndex_infinityIndex_mul_lt :
    Double.unitsOfIndex Double.infinityIndex * 5 ^ 1074 < 10 ^ 1384 := by decide +kernel

/-- The exact decimal of a number is read as the number. -/
theorem toDouble_exact {x : Double} (hx : x.isFinite = true) (hz : x.isZero = false) :
    (exact x).toDouble false = Double.ofIndex false x.index := by
  have hi := Double.isFinite_iff.1 hx
  have hne : Double.unitsOfIndex x.index ≠ 0 := by
    rw [Ne, Double.unitsOfIndex_eq_zero_iff, ← Double.isZero_iff, hz]
    exact Bool.false_ne_true
  have hpos : 0 < Double.unitsOfIndex x.index := Nat.pos_of_ne_zero hne
  have hlow : ¬(digitsOf (Double.unitsOfIndex x.index * 5 ^ 1074)).length ≤ 743 := by
    rw [length_digitsOf_le_iff (by decide), Nat.not_lt]
    exact five_pow_ge.trans (Nat.le_mul_of_pos_left _ hpos)
  have hhigh : (digitsOf (Double.unitsOfIndex x.index * 5 ^ 1074)).length ≤ 1384 := by
    rw [length_digitsOf_le_iff (by decide)]
    exact lt_of_le_of_lt (Nat.mul_le_mul_right _ (Double.unitsOfIndex_strictMono.monotone hi.le))
      unitsOfIndex_infinityIndex_mul_lt
  have hdigits : (exact x).digits ≠ 0 := by
    rw [exact]
    refine Nat.mul_ne_zero hne ?_
    decide +kernel
  have hexponent : (exact x).exponent = -1074 := rfl
  have hratio : Double.unitsPerOne * (Double.unitsOfIndex x.index * 5 ^ 1074) =
      Double.unitsOfIndex x.index * 10 ^ 1074 := by
    rw [unitsPerOne_eq, ten_pow_eq, ← Nat.mul_assoc, Nat.mul_comm (2 ^ 1074), Nat.mul_assoc]
  have hpoint : (exact x).pointPosition =
      (digitsOf (Double.unitsOfIndex x.index * 5 ^ 1074)).length - 1074 := rfl
  rw [toDouble, if_neg (by rw [hpoint]; rintro (h | h); exact hdigits h; omega),
    if_neg (by rw [hpoint]; omega), if_neg (by rw [hexponent]; decide)]
  change Double.ofUnitsRatio false (Double.unitsPerOne * (Double.unitsOfIndex x.index * 5 ^ 1074))
    (10 ^ 1074) = _
  rw [hratio, Double.ofUnitsRatio_unitsOfIndex _ hi.le (Nat.pow_pos (by decide))]

/-- The shortest decimal of a number is read as the number. -/
theorem toDouble_shortest {x : Double} (hx : x.isFinite = true) :
    (shortest x).toDouble false = Double.ofIndex false x.index := by
  by_cases hz : x.isZero = true
  · rw [shortest, if_pos hz, toDouble_zero, Double.isZero_iff.1 hz]
  · rw [shortest, if_neg hz]
    simp only
    rcases hs : (List.range 17).findSome? fun n => neighbour? x
        (pointPositionOfRatio (Double.unitsOfIndex x.index) Double.unitsPerOne) (n + 1) with _ | d
    · rw [Option.getD_none]
      exact toDouble_exact hx (by simpa using hz)
    · obtain ⟨n, _, hn⟩ := List.exists_of_findSome?_eq_some hs
      rw [Option.getD_some]
      exact toDouble_of_neighbour? hn

end Decimal
end RecordStore
