import Mathlib.Data.Nat.Log
import RecordStore.Proofs.Number.WholeNumbers

/-!
Where rounding goes. The index that a ratio is rounded to is no farther from the ratio than its neighbours
are, so a larger ratio is rounded to no smaller index, an index is found from any ratio that is close to it,
and the error is at most half a step of the binade that the ratio lies in.
-/

namespace RecordStore
namespace Double

variable {num num' den k : Nat}

/-! ### Rounding a quotient -/

/-- A quotient is rounded by at most a half. -/
theorem roundDiv_le (num : Nat) (hden : 0 < den) : 2 * (roundDiv num den * den) ≤ 2 * num + den := by
  have hdiv := Nat.div_add_mod num den
  have hmod := Nat.mod_lt num hden
  simp only [roundDiv]
  rw [Nat.mul_comm den] at hdiv
  split
  · omega
  · split
    · rw [Nat.add_mul]
      omega
    · -- a tie is rounded up by a half, or down
      have hone : num / den % 2 * den ≤ 1 * den := Nat.mul_le_mul_right _ (by omega)
      rw [Nat.add_mul]
      omega

theorem le_roundDiv (num : Nat) (hden : 0 < den) : 2 * num ≤ 2 * (roundDiv num den * den) + den := by
  have hdiv := Nat.div_add_mod num den
  have hmod := Nat.mod_lt num hden
  simp only [roundDiv]
  rw [Nat.mul_comm den] at hdiv
  split
  · omega
  · split
    · rw [Nat.add_mul]
      omega
    · rw [Nat.add_mul]
      omega

theorem roundDiv_zero (hden : 0 < den) : roundDiv 0 den = 0 := by
  have h := roundDiv_mul_right 0 hden
  rwa [Nat.zero_mul] at h

theorem roundDiv_mono (hden : 0 < den) (h : num ≤ num') : roundDiv num den ≤ roundDiv num' den := by
  have hle := roundDiv_le num hden
  have hge := le_roundDiv num' hden
  by_contra hlt
  have hstep : (roundDiv num' den + 1) * den ≤ roundDiv num den * den :=
    Nat.mul_le_mul_right _ (by omega)
  rw [Nat.add_mul] at hstep
  -- only one tie is left, and it is rounded one way
  obtain rfl : num = num' := by omega
  exact hlt le_rfl

/-! ### Steps between magnitudes -/

/-- A significand of 53 bits that is shifted. -/
theorem unitsOfIndex_add {r s : Nat} (hr : r ≤ 2 ^ 53) (hs : s = 0 ∨ 2 ^ 52 ≤ r) :
    unitsOfIndex (r + 2 ^ 52 * s) = r * 2 ^ s := by
  by_cases hlow : r < 2 ^ 52
  · obtain rfl : s = 0 := by omega
    rw [Nat.mul_zero, Nat.add_zero, unitsOfIndex_of_lt hlow, pow_zero, Nat.mul_one]
  · rw [unitsOfIndex_of_le (by omega)]
    by_cases hhigh : r = 2 ^ 53
    · subst hhigh
      rw [show (2 ^ 53 + 2 ^ 52 * s) % 2 ^ 52 = 0 by omega,
        show (2 ^ 53 + 2 ^ 52 * s) / 2 ^ 52 - 1 = s + 1 by omega, pow_succ]
      ring
    · rw [show 2 ^ 52 + (r + 2 ^ 52 * s) % 2 ^ 52 = r by omega,
        show (r + 2 ^ 52 * s) / 2 ^ 52 - 1 = s by omega]

/-- The step from one magnitude to the next is that of its binade. -/
theorem unitsOfIndex_succ (i : Nat) : unitsOfIndex (i + 1) = unitsOfIndex i + 2 ^ (i / 2 ^ 52 - 1) := by
  have hsplit (j : Nat) (hlow : 2 ^ 52 ≤ j) :
      j = 2 ^ 52 + j % 2 ^ 52 + 2 ^ 52 * (j / 2 ^ 52 - 1) := by omega
  by_cases hi : i < 2 ^ 52
  · have hzero : i / 2 ^ 52 - 1 = 0 := by omega
    have hnext := unitsOfIndex_add (r := i + 1) (s := 0) (by omega) (.inl rfl)
    rw [Nat.mul_zero, Nat.add_zero, pow_zero, Nat.mul_one] at hnext
    rw [hnext, unitsOfIndex_of_lt hi, hzero, pow_zero]
  · have hnext := unitsOfIndex_add (r := 2 ^ 52 + i % 2 ^ 52 + 1) (s := i / 2 ^ 52 - 1) (by omega)
      (.inr (by omega))
    rw [show 2 ^ 52 + i % 2 ^ 52 + 1 + 2 ^ 52 * (i / 2 ^ 52 - 1) = i + 1 by omega] at hnext
    rw [hnext, unitsOfIndex_of_le (by omega)]
    ring

theorem unitsOfIndex_shift (k : Nat) : unitsOfIndex (2 ^ 52 * (k + 1)) = 2 ^ (52 + k) := by
  have h := unitsOfIndex_add (r := 2 ^ 52) (s := k) (by decide) (.inr le_rfl)
  rw [show 2 ^ 52 + 2 ^ 52 * k = 2 ^ 52 * (k + 1) by ring, ← pow_add] at h
  exact h

/-- Above a power of two the step upward is at least that of its binade. -/
theorem add_le_unitsOfIndex_succ {i : Nat} (h : 2 ^ (52 + k) ≤ unitsOfIndex i) :
    unitsOfIndex i + 2 ^ k ≤ unitsOfIndex (i + 1) := by
  rw [← unitsOfIndex_shift, unitsOfIndex_strictMono.le_iff_le] at h
  rw [unitsOfIndex_succ]
  exact Nat.add_le_add_left (Nat.pow_le_pow_right (by decide) (by omega)) _

/-- Beyond a power of two the step downward is, too. -/
theorem unitsOfIndex_pred_add_le {i : Nat} (h : 2 ^ (52 + k) < unitsOfIndex i) :
    unitsOfIndex (i - 1) + 2 ^ k ≤ unitsOfIndex i := by
  have hi : 2 ^ 52 * (k + 1) < i := by
    rwa [← unitsOfIndex_shift, unitsOfIndex_strictMono.lt_iff_lt] at h
  have hpred : 2 ^ (52 + k) ≤ unitsOfIndex (i - 1) := by
    rw [← unitsOfIndex_shift, unitsOfIndex_strictMono.le_iff_le]
    omega
  have hstep := add_le_unitsOfIndex_succ hpred
  rwa [Nat.sub_add_cancel (by omega)] at hstep

/-! ### The nearest index -/

/-- What rounding comes to: the shift of the binade of a ratio, and a significand of 53 bits, which is the
ratio on this scale, rounded. -/
structure RoundsTo (num den r s : Nat) : Prop where
  index : nearestIndex num den = r + 2 ^ 52 * s
  significand : r = roundDiv num (den * 2 ^ s)
  shift : s = (num / den).log2 - 52
  le : r ≤ 2 ^ 53
  normal : s = 0 ∨ 2 ^ 52 ≤ r
  binade : s = 0 ∨ 2 ^ 52 * (den * 2 ^ s) ≤ num

theorem exists_roundsTo (num : Nat) (hden : 0 < den) : ∃ r s, RoundsTo num den r s := by
  obtain ⟨s, hs⟩ : ∃ s, s = (num / den).log2 - 52 := ⟨_, rfl⟩
  have hpos : 0 < den * 2 ^ s := Nat.mul_pos hden (Nat.two_pow_pos s)
  have hle := roundDiv_le num hpos
  have hge := le_roundDiv num hpos
  have hbinade : s = 0 ∨ 2 ^ 52 * (den * 2 ^ s) ≤ num := by
    by_cases h0 : s = 0
    · exact .inl h0
    · right
      have hne : num / den ≠ 0 := by
        intro h
        rw [h, Nat.log2_zero] at hs
        omega
      have hlog : 2 ^ (52 + s) ≤ num / den := by
        rw [show 52 + s = (num / den).log2 by omega]
        exact Nat.log2_self_le hne
      rw [Nat.le_div_iff_mul_le hden, pow_add] at hlog
      calc 2 ^ 52 * (den * 2 ^ s) = 2 ^ 52 * 2 ^ s * den := by ring
        _ ≤ num := hlog
  have hhigh : num < 2 ^ 53 * (den * 2 ^ s) := by
    have hlog : num / den < 2 ^ (53 + s) :=
      lt_of_lt_of_le Nat.lt_log2_self (Nat.pow_le_pow_right (by decide) (by omega))
    rw [Nat.div_lt_iff_lt_mul hden, pow_add] at hlog
    calc num < 2 ^ 53 * 2 ^ s * den := hlog
      _ = 2 ^ 53 * (den * 2 ^ s) := by ring
  refine ⟨_, s, ⟨by simp only [nearestIndex, ← hs], rfl, hs, ?_, ?_, hbinade⟩⟩
  · by_contra hlt
    have hstep : (2 ^ 53 + 1) * (den * 2 ^ s) ≤ roundDiv num (den * 2 ^ s) * (den * 2 ^ s) :=
      Nat.mul_le_mul_right _ (by omega)
    rw [Nat.add_mul] at hstep
    omega
  · refine hbinade.imp_right fun hlow => ?_
    by_contra hlt
    have hstep : roundDiv num (den * 2 ^ s) * (den * 2 ^ s) ≤ (2 ^ 52 - 1) * (den * 2 ^ s) :=
      Nat.mul_le_mul_right _ (by omega)
    rw [Nat.sub_mul] at hstep
    omega

namespace RoundsTo

variable {r s : Nat}

theorem units (h : RoundsTo num den r s) : unitsOfIndex (nearestIndex num den) = r * 2 ^ s := by
  rw [h.index, unitsOfIndex_add h.le h.normal]

/-- The rounded magnitude is off by at most half a unit in the last place of the significand. -/
theorem close (h : RoundsTo num den r s) (hden : 0 < den) :
    2 * (unitsOfIndex (nearestIndex num den) * den) ≤ 2 * num + den * 2 ^ s ∧
      2 * num ≤ 2 * (unitsOfIndex (nearestIndex num den) * den) + den * 2 ^ s := by
  have hpos : 0 < den * 2 ^ s := Nat.mul_pos hden (Nat.two_pow_pos s)
  have hunits : unitsOfIndex (nearestIndex num den) * den = roundDiv num (den * 2 ^ s) * (den * 2 ^ s) := by
    rw [h.units, ← h.significand]
    ring
  rw [hunits]
  exact ⟨roundDiv_le num hpos, le_roundDiv num hpos⟩

end RoundsTo

theorem nearestIndex_zero (hden : 0 < den) : nearestIndex 0 den = 0 := by
  have h := nearestIndex_unitsOfIndex 0 hden
  rwa [unitsOfIndex_zero, Nat.zero_mul] at h

/-- A larger ratio is rounded to no smaller index. -/
theorem nearestIndex_mono (hden : 0 < den) (h : num ≤ num') : nearestIndex num den ≤ nearestIndex num' den := by
  obtain ⟨r, s, hr⟩ := exists_roundsTo num hden
  obtain ⟨r', s', hr'⟩ := exists_roundsTo num' hden
  have hshift : s ≤ s' := by
    rw [hr.shift, hr'.shift, Nat.log2_eq_log_two, Nat.log2_eq_log_two]
    exact Nat.sub_le_sub_right (Nat.log_mono_right (Nat.div_le_div_right h)) 52
  have hle := hr.le
  have hnormal := hr'.normal
  rw [hr.index, hr'.index]
  rcases Nat.eq_or_lt_of_le hshift with rfl | hlt
  · have hround : r ≤ r' := by
      rw [hr.significand, hr'.significand]
      exact roundDiv_mono (Nat.mul_pos hden (Nat.two_pow_pos s)) h
    omega
  · -- the first index of a later binade is beyond all of an earlier one
    omega

/-- A ratio is no farther from the magnitude that it is rounded to than from the next one. -/
theorem le_add_next (num : Nat) (hden : 0 < den) : 2 * num ≤
    (unitsOfIndex (nearestIndex num den) + unitsOfIndex (nearestIndex num den + 1)) * den := by
  obtain ⟨r, s, hr⟩ := exists_roundsTo num hden
  have hclose := (hr.close hden).2
  have hstep : 2 ^ s ≤ 2 ^ (nearestIndex num den / 2 ^ 52 - 1) := by
    refine Nat.pow_le_pow_right (by decide) ?_
    have := hr.normal
    rw [hr.index]
    omega
  have hmul := Nat.mul_le_mul_left den hstep
  rw [unitsOfIndex_succ, Nat.add_mul, Nat.add_mul, Nat.mul_comm (2 ^ _) den]
  omega

/-- Nor than from the one before. -/
theorem add_previous_le (num : Nat) (hden : 0 < den) (hpos : 0 < nearestIndex num den) :
    (unitsOfIndex (nearestIndex num den - 1) + unitsOfIndex (nearestIndex num den)) * den ≤ 2 * num := by
  obtain ⟨r, s, hr⟩ := exists_roundsTo num hden
  have hclose := (hr.close hden).1
  obtain ⟨i, hi⟩ : ∃ i, nearestIndex num den = i + 1 := ⟨_, (Nat.sub_add_cancel hpos).symm⟩
  have hnext := unitsOfIndex_succ i
  by_cases hfirst : s ≠ 0 ∧ r = 2 ^ 52
  · -- at the start of a binade the ratio is not below the magnitude at all
    have hlow := hr.binade.resolve_left hfirst.1
    have hunits : unitsOfIndex (i + 1) * den ≤ num := by
      rw [← hi, hr.units, hfirst.2]
      calc 2 ^ 52 * 2 ^ s * den = 2 ^ 52 * (den * 2 ^ s) := by ring
        _ ≤ num := hlow
    have hprevious : unitsOfIndex i * den ≤ unitsOfIndex (i + 1) * den :=
      Nat.mul_le_mul_right _ (unitsOfIndex_lt_succ i).le
    rw [hi, Nat.add_sub_cancel, Nat.add_mul]
    omega
  · have hindex := hr.index
    have hnormal := hr.normal
    have hle := hr.le
    have hshift : i / 2 ^ 52 - 1 = s := by omega
    rw [hshift] at hnext
    have hmul : unitsOfIndex (i + 1) * den = unitsOfIndex i * den + den * 2 ^ s := by
      rw [hnext, Nat.add_mul, Nat.mul_comm (2 ^ s)]
    rw [hi] at hclose
    rw [hi, Nat.add_sub_cancel, Nat.add_mul]
    omega

/-- The index of the magnitude that is nearest to a ratio is what the ratio is rounded to. -/
theorem nearestIndex_eq_of_between {i : Nat} (hden : 0 < den)
    (hlow : (unitsOfIndex (i - 1) + unitsOfIndex i) * den < 2 * num)
    (hhigh : 2 * num < (unitsOfIndex i + unitsOfIndex (i + 1)) * den) : nearestIndex num den = i := by
  have hmono {a b : Nat} (h : a ≤ b) : unitsOfIndex a ≤ unitsOfIndex b := unitsOfIndex_strictMono.monotone h
  rcases lt_trichotomy (nearestIndex num den) i with h | h | h
  · have hnext := le_add_next num hden
    have hsum : (unitsOfIndex (nearestIndex num den) + unitsOfIndex (nearestIndex num den + 1)) * den ≤
        (unitsOfIndex (i - 1) + unitsOfIndex i) * den :=
      Nat.mul_le_mul_right _ (Nat.add_le_add (hmono (by omega)) (hmono h))
    omega
  · exact h
  · have hprevious := add_previous_le num hden (Nat.zero_lt_of_lt h)
    have hsum : (unitsOfIndex i + unitsOfIndex (i + 1)) * den ≤
        (unitsOfIndex (nearestIndex num den - 1) + unitsOfIndex (nearestIndex num den)) * den :=
      Nat.mul_le_mul_right _ (Nat.add_le_add (hmono (by omega)) (hmono h))
    omega

/-! ### Errors -/

/-- The binade of a ratio that is below a power of two ends there. -/
theorem RoundsTo.shift_le {r s : Nat} (h : RoundsTo num den r s) (hnum : num < 2 ^ 53 * (2 ^ k * den)) :
    s ≤ k := by
  rcases h.binade with rfl | hlow
  · exact Nat.zero_le k
  · by_contra hlt
    have hpow : 2 ^ (k + 1) ≤ 2 ^ s := Nat.pow_le_pow_right (by decide) (by omega)
    have hmul := Nat.mul_le_mul_left den hpow
    have heq : den * 2 ^ (k + 1) = 2 * (2 ^ k * den) := by ring
    omega

/-- Below a power of two the error is at most half a step of the binade that it ends. -/
theorem nearestIndex_close (hden : 0 < den) (hnum : num < 2 ^ 53 * (2 ^ k * den)) :
    2 * (unitsOfIndex (nearestIndex num den) * den) ≤ 2 * num + 2 ^ k * den ∧
      2 * num ≤ 2 * (unitsOfIndex (nearestIndex num den) * den) + 2 ^ k * den := by
  obtain ⟨r, s, hr⟩ := exists_roundsTo num hden
  obtain ⟨hle, hge⟩ := hr.close hden
  have hstep : den * 2 ^ s ≤ 2 ^ k * den := by
    rw [Nat.mul_comm]
    exact Nat.mul_le_mul_right _ (Nat.pow_le_pow_right (by decide) (hr.shift_le hnum))
  omega

/-- Far enough from the end of the line nothing is rounded to an infinity. -/
theorem nearestIndex_lt_infinityIndex (hden : 0 < den) (hk : k ≤ 2044) (hnum : num < 2 ^ 53 * (2 ^ k * den)) :
    nearestIndex num den < infinityIndex := by
  obtain ⟨r, s, hr⟩ := exists_roundsTo num hden
  have hs := hr.shift_le hnum
  have hle := hr.le
  rw [hr.index, infinityIndex]
  omega

/-! ### Signs -/

/-- A whole number by its sign and its magnitude. -/
def signed (negative : Bool) (n : Nat) : Int := if negative then -(n : Int) else n

@[simp] theorem signed_true (n : Nat) : signed true n = -(n : Int) := if_pos rfl

@[simp] theorem signed_false (n : Nat) : signed false n = n := if_neg Bool.false_ne_true

@[simp] theorem natAbs_signed (negative : Bool) (n : Nat) : (signed negative n).natAbs = n := by
  cases negative <;> simp

/-- The sign of one whole number on the magnitude of another. -/
theorem signed_lt_zero (m : Int) (n : Nat) : signed (m < 0) n = if m < 0 then -(n : Int) else n := by
  simp [signed]

theorem signed_natAbs (n : Int) : signed (n < 0) n.natAbs = n := by
  rw [signed_lt_zero]
  omega

/-- What is monotone for magnitudes is so on both sides of zero. -/
theorem signed_mono {f : Nat → Nat} (hf : Monotone f) (hzero : f 0 = 0) {a b : Bool} {m n : Nat}
    (h : signed a m ≤ signed b n) : signed a (f m) ≤ signed b (f n) := by
  cases a with
  | true =>
      cases b with
      | true =>
          simp only [signed_true, Int.neg_le_neg_iff, Int.ofNat_le] at h ⊢
          exact hf h
      | false =>
          rw [signed_true, signed_false]
          omega
  | false =>
      cases b with
      | true =>
          -- a negative number is not below another one, unless both are zero
          rw [signed_true, signed_false] at h
          obtain ⟨rfl, rfl⟩ : m = 0 ∧ n = 0 := by omega
          simp [hzero]
      | false =>
          simp only [signed_false, Int.ofNat_le] at h ⊢
          exact hf h

/-- The index of the rounded number, an infinity at most. -/
def boundedIndex (num den : Nat) : Nat := min (nearestIndex num den) infinityIndex

theorem boundedIndex_lt (num den : Nat) : boundedIndex num den < 2 ^ 63 :=
  lt_of_le_of_lt (Nat.min_le_right _ _) infinityIndex_lt

theorem boundedIndex_mono (hden : 0 < den) : Monotone fun num => boundedIndex num den :=
  fun _ _ h => min_le_min_right _ (nearestIndex_mono hden h)

theorem boundedIndex_zero (hden : 0 < den) : boundedIndex 0 den = 0 := by
  rw [boundedIndex, nearestIndex_zero hden, Nat.zero_min]

theorem rank_ofUnitsRatio (negative : Bool) (num den : Nat) :
    (ofUnitsRatio negative num den).rank = signed negative (boundedIndex num den) := by
  have hlt := boundedIndex_lt num den
  change (ofIndex negative (boundedIndex num den)).rank = _
  rw [rank, isNegative_ofIndex _ hlt, index_ofIndex _ hlt, signed]

/-- A larger ratio, with its sign, is rounded to no smaller number. -/
theorem rank_ofUnitsRatio_mono (hden : 0 < den) {m n : Int} (h : m ≤ n) :
    (ofUnitsRatio (m < 0) m.natAbs den).rank ≤ (ofUnitsRatio (n < 0) n.natAbs den).rank := by
  rw [rank_ofUnitsRatio, rank_ofUnitsRatio]
  refine signed_mono (boundedIndex_mono hden) (boundedIndex_zero hden) ?_
  rwa [signed_natAbs, signed_natAbs]

/-- A larger number has no smaller product with a ratio. -/
theorem rank_scale_mono (hden : 0 < den) {x y : Double} (h : x.rank ≤ y.rank) :
    (x.scale num den).rank ≤ (y.scale num den).rank := by
  rw [scale, scale, rank_ofUnitsRatio, rank_ofUnitsRatio]
  refine signed_mono (f := fun i => boundedIndex (unitsOfIndex i * num) den) ?_ ?_ h
  · exact fun i j hij =>
      boundedIndex_mono hden (Nat.mul_le_mul_right _ (unitsOfIndex_strictMono.monotone hij))
  · rw [unitsOfIndex_zero, Nat.zero_mul, boundedIndex_zero hden]

/-- A finite number is rounded to itself. -/
theorem rank_ofUnitsRatio_units {x : Double} (hx : x.isNaN = false) :
    (ofUnitsRatio (x.units < 0) x.units.natAbs 1).rank = x.rank := by
  have hindex := isNaN_eq_false_iff.1 hx
  rw [rank_ofUnitsRatio, natAbs_units, boundedIndex, ← Nat.mul_one (unitsOfIndex _),
    nearestIndex_unitsOfIndex _ Nat.one_pos, Nat.min_eq_left hindex, signed, rank]
  by_cases hzero : x.index = 0
  · simp [hzero]
  · have hsign := units_neg_iff (x := x)
    cases hn : x.isNegative with
    | true => rw [if_pos (by rw [decide_eq_true_iff, hsign]; exact ⟨hn, hzero⟩), if_pos rfl]
    | false =>
        rw [if_neg, if_neg Bool.false_ne_true]
        rw [decide_eq_true_iff, hsign, hn]
        exact fun h => Bool.false_ne_true h.1

/-! ### Numbers by their indices -/

/-- What is rounded to an index below the infinities is the number with that index. -/
theorem ofUnitsRatio_of_lt (negative : Bool) {num den : Nat} (h : nearestIndex num den < infinityIndex) :
    ofUnitsRatio negative num den = ofIndex negative (nearestIndex num den) := by
  rw [ofUnitsRatio, Nat.min_eq_left h.le]

theorem units_ofIndex (negative : Bool) {i : Nat} (h : i < infinityIndex) :
    (ofIndex negative i).units = signed negative (unitsOfIndex i) := by
  have hlt := h.trans infinityIndex_lt
  rw [units, isNegative_ofIndex _ hlt, index_ofIndex _ hlt, signed]

theorem scale_ofIndex (negative : Bool) {i num den : Nat} (h : i < infinityIndex)
    (hround : nearestIndex (unitsOfIndex i * num) den < infinityIndex) :
    (ofIndex negative i).scale num den = ofIndex negative (nearestIndex (unitsOfIndex i * num) den) := by
  have hlt := h.trans infinityIndex_lt
  rw [scale, isNegative_ofIndex _ hlt, index_ofIndex _ hlt, ofUnitsRatio_of_lt _ hround]

end Double
end RecordStore
