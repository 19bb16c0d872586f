import Mathlib.Data.Int.ConditionallyCompleteOrder
import Mathlib.Order.Compare
import Mathlib.Order.ConditionallyCompleteLattice.Basic
import Mathlib.Order.WithBot
import RecordStore.Proofs.Number.Rounding

/-!
The order of doubles by value. A value is a whole number of units or one of the two ends of the
line; the two zeros have one value. The rank of a pattern has just this order.
-/

namespace RecordStore
namespace Double

/-- The order of the line of integers with an end on either side. It is the one that can be run. -/
instance : LinearOrder (WithBot (WithTop Int)) := @WithBot.linearOrder _ WithTop.linearOrder

instance : Ord (WithBot (WithTop Int)) := LinearOrder.toOrd

/-- The value of a number on the line of integers with an end on either side: its units, or an end
when it is an infinity. -/
def extended (x : Double) : WithBot (WithTop Int) :=
  if x.isInfinite then (if x.isNegative then ⊥ else ((⊤ : WithTop Int) : WithBot (WithTop Int)))
  else ((x.units : WithTop Int) : WithBot (WithTop Int))

/-- The units at a rank. -/
def unitsOfRank (r : Int) : Int :=
  if r < 0 then -(unitsOfIndex r.natAbs : Int) else unitsOfIndex r.natAbs

/-- The value at a rank. -/
def extendedOfRank (r : Int) : WithBot (WithTop Int) :=
  if r = -infinityIndex then ⊥
  else if r = infinityIndex then ((⊤ : WithTop Int) : WithBot (WithTop Int))
  else ((unitsOfRank r : WithTop Int) : WithBot (WithTop Int))

theorem natAbs_rank (x : Double) : x.rank.natAbs = x.index := by
  rw [rank]
  split <;> simp

theorem rank_neg_iff {x : Double} : x.rank < 0 ↔ x.isNegative = true ∧ x.index ≠ 0 := by
  rw [rank]
  split
  · simp_all
    omega
  · simp_all

theorem unitsOfRank_rank (x : Double) : unitsOfRank x.rank = x.units := by
  rw [unitsOfRank, units, natAbs_rank]
  by_cases hz : x.index = 0
  · simp [hz]
  · simp [rank_neg_iff, hz]

theorem extendedOfRank_rank (x : Double) : extendedOfRank x.rank = x.extended := by
  have hinf : (0 : Int) < infinityIndex := by decide
  have hr := natAbs_rank x
  rw [extendedOfRank, extended, unitsOfRank_rank]
  by_cases hi : x.index = infinityIndex
  · rw [if_pos (isInfinite_iff.2 hi), rank]
    split
    · simp [hi]
    · rw [if_neg (by omega), if_pos (by omega)]
  · rw [if_neg (by omega), if_neg (by omega), if_neg (by rwa [isInfinite_iff])]

theorem unitsOfRank_strictMono : StrictMono unitsOfRank := by
  intro r s h
  have hmono {i j : Nat} (hij : i < j) : unitsOfIndex i < unitsOfIndex j :=
    unitsOfIndex_strictMono hij
  rw [unitsOfRank, unitsOfRank]
  by_cases hs : s < 0
  · have := hmono (show s.natAbs < r.natAbs by omega)
    rw [if_pos (by omega), if_pos hs]
    omega
  · by_cases hr : r < 0
    · have := hmono (show 0 < r.natAbs by omega)
      rw [if_pos hr, if_neg hs]
      omega
    · have := hmono (show r.natAbs < s.natAbs by omega)
      rw [if_neg hr, if_neg hs]
      omega

theorem extendedOfRank_strictMonoOn :
    StrictMonoOn extendedOfRank (Set.Icc (-(infinityIndex : Int)) infinityIndex) := by
  rintro r ⟨hr, hr'⟩ s ⟨hs, hs'⟩ h
  rw [extendedOfRank, extendedOfRank, if_neg (show ¬s = -(infinityIndex : Int) by omega),
    if_neg (show ¬r = (infinityIndex : Int) by omega)]
  split
  · split
    · exact WithBot.bot_lt_coe _
    · exact WithBot.bot_lt_coe _
  · split
    · exact WithBot.coe_lt_coe.2 (WithTop.coe_lt_top _)
    · exact WithBot.coe_lt_coe.2 (WithTop.coe_lt_coe.2 (unitsOfRank_strictMono h))

theorem rank_mem_Icc {x : Double} (hx : x.isNaN = false) :
    x.rank ∈ Set.Icc (-(infinityIndex : Int)) infinityIndex := by
  have h := isNaN_eq_false_iff.1 hx
  have hr := natAbs_rank x
  constructor <;> omega

/-- Numbers are ordered as their ranks are. -/
theorem compare_rank {x y : Double} (hx : x.isNaN = false) (hy : y.isNaN = false) :
    compare x.rank y.rank = compare x.extended y.extended := by
  rw [← extendedOfRank_rank, ← extendedOfRank_rank, ← cmp_eq_compare, ← cmp_eq_compare]
  exact (extendedOfRank_strictMonoOn.cmp_map_eq (rank_mem_Icc hx) (rank_mem_Icc hy)).symm

end Double
end RecordStore
