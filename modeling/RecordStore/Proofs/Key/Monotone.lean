import RecordStore.Proofs.Key.Equality
import RecordStore.Proofs.Number.Nearest

/-!
Rounding never turns an order round. Numbers and dates are rounded when they become keys, and a date twice.
Each rounding is monotone, so of two numbers or dates the larger one is the larger key or the same, and those
that are equal as values are one key. Numbers that doubles are keep their order as it is.
-/

namespace RecordStore

namespace Double

/-- The rank of the number that a place on the line is rounded to. -/
def rankAt : WithBot (WithTop Int) → Int
  | none => -infinityIndex
  | some none => infinityIndex
  | some (some u) => (ofUnitsRatio (u < 0) u.natAbs 1).rank

theorem abs_rank_ofUnitsRatio_le (negative : Bool) (num den : Nat) :
    -(infinityIndex : Int) ≤ (ofUnitsRatio negative num den).rank ∧
      (ofUnitsRatio negative num den).rank ≤ infinityIndex :=
  rank_mem_Icc (isNaN_ofUnitsRatio negative num den)

theorem rankAt_mono {p q : WithBot (WithTop Int)} (h : p ≤ q) : rankAt p ≤ rankAt q := by
  have hinf : (0 : Int) ≤ infinityIndex := by decide
  match p, q, h with
  | none, none, _ => exact le_rfl
  | none, some none, _ =>
      change -(infinityIndex : Int) ≤ infinityIndex
      omega
  | none, some (some v), _ => exact (abs_rank_ofUnitsRatio_le _ _ _).1
  | some none, some none, _ => exact le_rfl
  | some (some u), some none, _ => exact (abs_rank_ofUnitsRatio_le _ _ _).2
  | some (some u), some (some v), h =>
      have huv : u ≤ v := WithTop.coe_le_coe.1 (WithBot.coe_le_coe.1 h)
      exact rank_ofUnitsRatio_mono Nat.one_pos huv
  | some none, some (some v), h => exact absurd (WithBot.coe_le_coe.1 h) (WithTop.not_top_le_coe v)
  | some _, none, h => exact absurd h (WithBot.not_coe_le_bot _)

theorem rankAt_extended {x : Double} (hx : x.isNaN = false) : rankAt x.extended = x.rank := by
  rw [extended]
  by_cases hinf : x.isInfinite = true
  · have hindex := isInfinite_iff.1 hinf
    rw [if_pos hinf, rank, hindex]
    cases x.isNegative with
    | true => rfl
    | false => rfl
  · rw [if_neg hinf]
    exact rank_ofUnitsRatio_units hx

theorem rankAt_of_ofInt? {n : Int} {x : Double} (h : ofInt? n = some x) :
    rankAt (((n * unitsPerOne : Int) : WithTop Int) : WithBot (WithTop Int)) = x.rank := by
  have hpos : (0 : Int) < unitsPerOne := by exact_mod_cast unitsPerOne_pos
  have hsign : decide (n * unitsPerOne < 0) = decide (n < 0) := by
    rw [decide_eq_decide, Int.mul_neg_iff]
    omega
  have habs : (n * (unitsPerOne : Int)).natAbs = unitsPerOne * n.natAbs := by
    rw [Int.natAbs_mul, Int.natAbs_natCast, Nat.mul_comm]
  have hx : ofRatio (n < 0) n.natAbs 1 = x := by
    simp only [ofInt?] at h
    split at h
    · cases h
    · exact Option.some.inj h
  change (ofUnitsRatio (n * unitsPerOne < 0) (n * (unitsPerOne : Int)).natAbs 1).rank = _
  rw [hsign, habs, ← hx, ofRatio]

end Double

namespace Value

/-- The place of a number on the line of units, exactly as it is: a whole number is so many ones, however many
there are, and a float has the place of its double. Truth values and NaNs are no numbers. -/
inductive IsAt : Value → WithBot (WithTop Int) → Prop
  | int (n : Int) : IsAt (.int n) ((n * Double.unitsPerOne : Int) : WithTop Int)
  | float {x : Double} (h : x.isNaN = false) : IsAt (.float x) x.extended

variable {v w : Value} {p q : WithBot (WithTop Int)} {a b : Bytes} {x y : Double}

/-- The key of a number is the number that its place is rounded to. -/
theorem IsAt.exists_rank (hv : v.IsAt p) (h : v.encodeKey = .ok a) :
    ∃ x, Key.ofValue v = .ok (.number x) ∧ x.isNaN = false ∧ x.rank = Double.rankAt p := by
  obtain ⟨k, hk, rfl⟩ := encodeKey_eq_ok_iff.1 h
  obtain ⟨hcheck, hconvert⟩ := Key.ofValue_eq_ok_iff.1 hk
  cases hv with
  | int n =>
      rw [Key.convert] at hconvert
      cases hx : Double.ofInt? n with
      | none =>
          rw [hx] at hconvert
          cases hconvert
      | some x =>
          rw [hx] at hconvert
          cases hconvert
          exact ⟨x, hk, Double.isNaN_of_ofInt? hx, (Double.rankAt_of_ofInt? hx).symm⟩
  | float hnan =>
      cases hconvert
      exact ⟨_, hk, hnan, (Double.rankAt_extended hnan).symm⟩

theorem compareKeys_of_ofValue {k l : Key} (hv : Key.ofValue v = .ok k) (hw : Key.ofValue w = .ok l) :
    v.compareKeys w = .ok (k.compare l) := by
  rw [compareKeys, encodeKey_eq_ok_iff.2 ⟨k, hv, rfl⟩, encodeKey_eq_ok_iff.2 ⟨l, hw, rfl⟩, ok_bind, ok_bind,
    Key.compare_encode (Key.isOrdered_of_ofValue hv) (Key.isOrdered_of_ofValue hw)]

/-- A comparison keeps an order if it never turns it round: what is smaller does not come later, and what is
equal is the same. -/
structure Keeps {α : Type} [LT α] (o : Ordering) (p q : α) : Prop where
  lt : p < q → o ≠ .gt
  gt : q < p → o ≠ .lt
  eq : p = q → o = .eq

theorem keeps_compare_of_mono {α : Type} [Preorder α] {f : α → Int} (hf : Monotone f) (p q : α) :
    Keeps (compare (f p) (f q)) p q where
  lt h := by
    rw [Ne, Int.compare_eq_gt, not_lt]
    exact hf h.le
  gt h := by
    rw [Ne, Int.compare_eq_lt, not_lt]
    exact hf h.le
  eq h := by
    rw [h]
    exact Std.compare_self

/-! ### Numbers -/

theorem compareKeys_of_isAt (hv : v.IsAt p) (hw : w.IsAt q) (ha : v.encodeKey = .ok a)
    (hb : w.encodeKey = .ok b) : v.compareKeys w = .ok (compare (Double.rankAt p) (Double.rankAt q)) := by
  obtain ⟨x, hx, hxnan, hxrank⟩ := hv.exists_rank ha
  obtain ⟨y, hy, hynan, hyrank⟩ := hw.exists_rank hb
  rw [compareKeys_of_ofValue hx hy, Key.compare, ← Double.compare_rank hxnan hynan, hxrank, hyrank]

/-- The number that a double is has just the place of the double. -/
theorem IsDouble.place_eq (h : v.IsDouble x) (hv : v.IsAt p) : p = x.extended := by
  cases h with
  | int hint =>
      cases hv
      exact ((Double.equalsInt_iff (Double.isNaN_of_equalsInt hint)).1 hint).symm
  | float =>
      cases hv
      rfl

/-- Numbers that doubles are keep their order as it is. -/
theorem compare_rankAt_of_isDouble (hv : v.IsAt p) (hw : w.IsAt q) (hx : v.IsDouble x) (hy : w.IsDouble y) :
    compare (Double.rankAt p) (Double.rankAt q) = compare p q := by
  rw [hx.place_eq hv, hy.place_eq hw, Double.rankAt_extended hx.isNaN, Double.rankAt_extended hy.isNaN,
    Double.compare_rank hx.isNaN hy.isNaN]

/-- A whole number up to 2⁵³, either way, is that of a double. -/
theorem exists_isDouble_of_natAbs_le {n : Int} (h : n.natAbs ≤ 2 ^ 53) : ∃ x, (Value.int n).IsDouble x := by
  obtain ⟨i, hi, hunits⟩ := Double.exists_unitsOfIndex_eq h
  have hlt : i < 2 ^ 63 := lt_trans hi Double.infinityIndex_lt
  refine ⟨Double.ofIndex (n < 0) i, .int ?_⟩
  rw [Double.equalsInt, Bool.and_eq_true, beq_iff_eq, Double.isFinite_iff, Double.index_ofIndex _ hlt,
    Double.units, Double.isNegative_ofIndex _ hlt, Double.index_ofIndex _ hlt, hunits]
  refine ⟨hi, ?_⟩
  by_cases hn : n < 0
  · rw [if_pos (decide_eq_true hn), Int.natCast_mul, Int.ofNat_natAbs_of_nonpos hn.le, Int.neg_mul, Int.neg_neg]
  · rw [if_neg (by rwa [decide_eq_true_iff]), Int.natCast_mul, Int.natAbs_of_nonneg (Int.not_lt.1 hn)]

/-! ### Dates -/

/-- A later instant has no fewer milliseconds, after both roundings. -/
theorem rank_millisOf_mono : Monotone fun micros => (Key.millisOf micros).rank := by
  intro m n h
  have hpos : (0 : Int) < Double.unitsPerOne := by exact_mod_cast Double.unitsPerOne_pos
  have hround (micros : Int) : Double.ofRatio (micros < 0) micros.natAbs 1000000 =
      Double.ofUnitsRatio (micros * Double.unitsPerOne < 0) (micros * (Double.unitsPerOne : Int)).natAbs
        1000000 := by
    have hsign : decide (micros < 0) = decide (micros * Double.unitsPerOne < 0) := by
      rw [decide_eq_decide, Int.mul_neg_iff]
      omega
    rw [Double.ofRatio, hsign, Int.natAbs_mul, Int.natAbs_natCast, Nat.mul_comm]
  -- the second rounding keeps the order of what the first one came to
  refine Double.rank_scale_mono Nat.one_pos ?_
  rw [hround, hround]
  exact Double.rank_ofUnitsRatio_mono (by decide) (Int.mul_le_mul_of_nonneg_right h hpos.le)

theorem ofValue_date {d : DateTime} (h : d.offset.isSome = true) :
    Key.ofValue (.date d) = .ok (.date (Key.millisOf d.instant)) := by
  refine Key.ofValue_eq_ok_iff.2 ⟨?_, rfl⟩
  rw [Key.check, Option.isNone_eq_false_iff.2 h]
  rfl

theorem compareKeys_date {d e : DateTime} (hd : d.offset.isSome = true) (he : e.offset.isSome = true) :
    (Value.date d).compareKeys (.date e) =
      .ok (compare (Key.millisOf d.instant).rank (Key.millisOf e.instant).rank) := by
  rw [compareKeys_of_ofValue (ofValue_date hd) (ofValue_date he), Key.compare,
    Double.compare_rank (Key.isNaN_millisOf _) (Key.isNaN_millisOf _)]

/-! ### Orders that are kept -/

/-- Conversion to doubles never reverses an order. Two numbers that can be encoded are compared as they are
ordered exactly, or rounded to one; they are never rounded where both are those of doubles, as all whole
numbers up to 2⁵³ are. Two dates with offsets are compared as their instants are ordered, or rounded to one. -/
theorem compareKeys_keeps_order :
    (∀ (v w : Value) (p q : WithBot (WithTop Int)) (a b : Bytes), v.IsAt p → w.IsAt q →
      v.encodeKey = .ok a → w.encodeKey = .ok b → ∃ o, v.compareKeys w = .ok o ∧ Keeps o p q ∧
        ∀ x y, v.IsDouble x → w.IsDouble y → o = compare p q) ∧
    (∀ n : Int, n.natAbs ≤ 2 ^ 53 → ∃ x, (Value.int n).IsDouble x) ∧
    ∀ d e : DateTime, d.offset.isSome = true → e.offset.isSome = true →
      ∃ o, (Value.date d).compareKeys (.date e) = .ok o ∧ Keeps o d.instant e.instant := by
  refine ⟨?_, fun n => exists_isDouble_of_natAbs_le, ?_⟩
  · intro v w p q a b hv hw ha hb
    refine ⟨_, compareKeys_of_isAt hv hw ha hb, ?_, fun x y hx hy => compare_rankAt_of_isDouble hv hw hx hy⟩
    exact keeps_compare_of_mono (fun _ _ => Double.rankAt_mono) p q
  · intro d e hd he
    exact ⟨_, compareKeys_date hd he, keeps_compare_of_mono rank_millisOf_mono _ _⟩

theorem isOffset_utc : ∀ o ∈ some (0 : Int), IsOffset o := by
  rintro o ⟨⟩
  decide

/-- A date as it is read from a clock in UTC, and from one that is an hour ahead. -/
def leapDay : DateTime := ⟨⟨2024, 2, 29, 12, 0, 0, 1⟩, some 0, by decide, isOffset_utc⟩

def leapDayAhead : DateTime :=
  ⟨⟨2024, 2, 29, 13, 0, 0, 1⟩, some 3600000000, by decide, by rintro o ⟨⟩; decide⟩

/-- The first whole number that is rounded does not come before its neighbour, and the date is one key on both
clocks. -/
theorem compareKeys_keeps_order_rounded :
    (∃ o, (Value.int (2 ^ 53)).compareKeys (.int (2 ^ 53 + 1)) = .ok o ∧ o ≠ .gt) ∧
      (Value.date leapDay).compareKeys (.date leapDayAhead) = .ok .eq := by
  obtain ⟨hnumbers, _, hdates⟩ := compareKeys_keeps_order
  constructor
  · have hbytes : (Value.int (2 ^ 53)).encodeKey = .ok [16, 195, 64, 0, 0, 0, 0, 0, 0] ∧
        (Value.int (2 ^ 53 + 1)).encodeKey = .ok [16, 195, 64, 0, 0, 0, 0, 0, 0] :=
      ⟨eq_ok_of_toOption (by decide +kernel), eq_ok_of_toOption (by decide +kernel)⟩
    obtain ⟨o, ho, hkeeps, _⟩ := hnumbers _ _ _ _ _ _ (.int (2 ^ 53)) (.int (2 ^ 53 + 1)) hbytes.1 hbytes.2
    refine ⟨o, ho, hkeeps.lt (WithBot.coe_lt_coe.2 (WithTop.coe_lt_coe.2 ?_))⟩
    exact Int.mul_lt_mul_of_pos_right (by decide) (by exact_mod_cast Double.unitsPerOne_pos)
  · obtain ⟨o, ho, hkeeps⟩ := hdates leapDay leapDayAhead rfl rfl
    rw [ho, hkeeps.eq (by decide)]

end Value
end RecordStore
