import RecordStore.Proofs.Key.Monotone

/-!
What becomes of an instant in a key. Its microseconds are rounded to a double of seconds, these to a double of
milliseconds, and on the way back to a double of seconds again, which is cut into whole seconds and the nearest
microsecond. Each step is monotone and its error is known, so the whole is the same instant up to the middle
of the year 2039, either way from 1970, and it is never off by more than 46 microseconds in the calendar.
-/

namespace RecordStore
namespace Instant

open Double (unitsPerOne unitsOfIndex nearestIndex roundDiv infinityIndex signed)

/-! ### The four roundings -/

/-- The double of seconds that `n` microseconds are rounded to, by its index. -/
def secondsIndex (n : Nat) : Nat := nearestIndex (unitsPerOne * n) 1000000

/-- The double of milliseconds that these are rounded to; it is what a key holds. -/
def millisIndex (n : Nat) : Nat := nearestIndex (unitsOfIndex (secondsIndex n) * 1000) 1

/-- The double of seconds that is made of what a key holds. -/
def clockIndex (n : Nat) : Nat := nearestIndex (unitsOfIndex (millisIndex n)) 1000

/-- The microseconds of a double of seconds: those of the whole seconds, and those of the rest, rounded to a
double and then to a natural. -/
def microsOfIndex (i : Nat) : Nat :=
  unitsOfIndex i / unitsPerOne * 1000000 +
    roundDiv (unitsOfIndex (nearestIndex (unitsOfIndex i % unitsPerOne * 1000000) 1)) unitsPerOne

/-- The microseconds that come back of `n` microseconds. -/
def passage (n : Nat) : Nat := microsOfIndex (clockIndex n)

/-! ### Monotony -/

theorem microsOfIndex_mono : Monotone microsOfIndex := by
  intro i j h
  have hU := Double.unitsPerOne_pos
  have hunits : unitsOfIndex i ≤ unitsOfIndex j := Double.unitsOfIndex_strictMono.monotone h
  have hround {a b : Nat} (hab : a ≤ b) : roundDiv (unitsOfIndex (nearestIndex a 1)) unitsPerOne ≤
      roundDiv (unitsOfIndex (nearestIndex b 1)) unitsPerOne :=
    Double.roundDiv_mono hU
      (Double.unitsOfIndex_strictMono.monotone (Double.nearestIndex_mono Nat.one_pos hab))
  rw [microsOfIndex, microsOfIndex]
  rcases Nat.eq_or_lt_of_le (Nat.div_le_div_right (c := unitsPerOne) hunits) with hq | hq
  · -- in one second the rests are ordered
    have hi := Nat.div_add_mod (unitsOfIndex i) unitsPerOne
    have hj := Nat.div_add_mod (unitsOfIndex j) unitsPerOne
    rw [hq] at hi
    have hrest := hround (Nat.mul_le_mul_right 1000000
      (show unitsOfIndex i % unitsPerOne ≤ unitsOfIndex j % unitsPerOne by omega))
    rw [hq]
    exact Nat.add_le_add_left hrest _
  · -- the rest of a second is rounded to a second at most
    obtain ⟨k, _, hk⟩ := Double.exists_unitsOfIndex_eq (n := 1000000) (by decide)
    have hsecond : roundDiv (unitsOfIndex (nearestIndex (1000000 * unitsPerOne) 1)) unitsPerOne = 1000000 := by
      rw [← hk, ← Nat.mul_one (unitsOfIndex k), Double.nearestIndex_unitsOfIndex k Nat.one_pos, hk,
        Double.roundDiv_mul_right _ hU]
    have hrest := hround (a := unitsOfIndex i % unitsPerOne * 1000000) (b := 1000000 * unitsPerOne) (by
      rw [Nat.mul_comm 1000000]
      exact Nat.mul_le_mul_right _ (Nat.mod_lt _ hU).le)
    rw [hsecond] at hrest
    omega

theorem secondsIndex_mono : Monotone secondsIndex :=
  fun _ _ h => Double.nearestIndex_mono (by decide) (Nat.mul_le_mul_left _ h)

theorem millisIndex_mono : Monotone millisIndex := fun _ _ h =>
  Double.nearestIndex_mono Nat.one_pos
    (Nat.mul_le_mul_right _ (Double.unitsOfIndex_strictMono.monotone (secondsIndex_mono h)))

/-- A later instant does not come back earlier. -/
theorem passage_mono : Monotone passage := fun _ _ h =>
  microsOfIndex_mono
    (Double.nearestIndex_mono (by decide) (Double.unitsOfIndex_strictMono.monotone (millisIndex_mono h)))

/-! ### Errors -/

/-- A small unit, 2¹⁰⁴⁰, which the steps between the doubles that matter here are multiples of. -/
def grain : Nat := (2 ^ 208) ^ 5

theorem grain_pos : 0 < grain := Nat.pow_pos (Nat.two_pow_pos _)

theorem unitsPerOne_eq_grain : unitsPerOne = 2 ^ 34 * grain := by
  have hsplit : 179 * 6 = 34 + 208 * 5 := rfl
  rw [unitsPerOne, grain, ← pow_mul, hsplit, pow_add, pow_mul]

theorem exists_shift (j : Nat) : ∃ k, 2 ^ k = 2 ^ j * grain ∧ 2 ^ (52 + k) = 2 ^ (52 + j) * grain := by
  refine ⟨j + 208 * 5, ?_, ?_⟩
  · rw [grain, ← pow_mul, pow_add]
  · rw [grain, ← pow_mul, ← pow_add, Nat.add_assoc]

/-- Rounding is off by half a step at most, if the ratio is below 2⁵³ steps. -/
theorem nearestIndex_close_grain (n : Nat) {d : Nat} (k : Nat) (hd : 0 < d)
    (h : n < 2 ^ 53 * (2 ^ k * grain * d)) :
    2 * (unitsOfIndex (nearestIndex n d) * d) ≤ 2 * n + 2 ^ k * grain * d ∧
      2 * n ≤ 2 * (unitsOfIndex (nearestIndex n d) * d) + 2 ^ k * grain * d := by
  obtain ⟨j, hj, _⟩ := exists_shift k
  rw [← hj] at h ⊢
  exact Double.nearestIndex_close hd h

/-- The microseconds of a double of seconds are off by a half and a grain at most. -/
theorem microsOfIndex_close (i : Nat) :
    2 * (microsOfIndex i * unitsPerOne) ≤ 2 * (unitsOfIndex i * 1000000) + unitsPerOne + 2 * grain ∧
      2 * (unitsOfIndex i * 1000000) ≤ 2 * (microsOfIndex i * unitsPerOne) + unitsPerOne + 2 * grain := by
  have hU := Double.unitsPerOne_pos
  have hgrain := unitsPerOne_eq_grain
  have hsplit := Nat.div_add_mod (unitsOfIndex i) unitsPerOne
  have hmod := Nat.mod_lt (unitsOfIndex i) hU
  have hcut := nearestIndex_close_grain (unitsOfIndex i % unitsPerOne * 1000000) 1 Nat.one_pos (by omega)
  have hle := Double.roundDiv_le (unitsOfIndex (nearestIndex (unitsOfIndex i % unitsPerOne * 1000000) 1)) hU
  have hge := Double.le_roundDiv (unitsOfIndex (nearestIndex (unitsOfIndex i % unitsPerOne * 1000000) 1)) hU
  have hwhole : unitsOfIndex i / unitsPerOne * 1000000 * unitsPerOne =
      unitsPerOne * (unitsOfIndex i / unitsPerOne) * 1000000 := by ring
  rw [microsOfIndex, Nat.add_mul, hwhole]
  omega

/-- Microseconds that are close enough to a double of seconds come out of it. -/
theorem microsOfIndex_eq_of_close {i n : Nat}
    (hle : 2 * (unitsOfIndex i * 1000000) + 2 * grain < 2 * (unitsPerOne * n) + unitsPerOne)
    (hge : 2 * (unitsPerOne * n) + 2 * grain < 2 * (unitsOfIndex i * 1000000) + unitsPerOne) :
    microsOfIndex i = n := by
  obtain ⟨hhigh, hlow⟩ := microsOfIndex_close i
  rw [Nat.mul_comm unitsPerOne n] at hle hge
  rcases lt_trichotomy (microsOfIndex i) n with h | h | h
  · have hstep : (microsOfIndex i + 1) * unitsPerOne ≤ n * unitsPerOne := Nat.mul_le_mul_right _ h
    rw [Nat.add_mul] at hstep
    omega
  · exact h
  · have hstep : (n + 1) * unitsPerOne ≤ microsOfIndex i * unitsPerOne := Nat.mul_le_mul_right _ h
    rw [Nat.add_mul] at hstep
    omega

/-- What the roundings to seconds and to milliseconds are off by. -/
theorem seconds_close {n : Nat} (k : Nat) (h : unitsPerOne * n < 2 ^ 53 * (2 ^ k * grain * 1000000)) :
    2 * (unitsOfIndex (secondsIndex n) * 1000000) ≤ 2 * (unitsPerOne * n) + 2 ^ k * grain * 1000000 ∧
      2 * (unitsPerOne * n) ≤ 2 * (unitsOfIndex (secondsIndex n) * 1000000) + 2 ^ k * grain * 1000000 :=
  nearestIndex_close_grain _ k (by decide) h

theorem millis_close {n : Nat} (k : Nat)
    (h : unitsOfIndex (secondsIndex n) * 1000 < 2 ^ 53 * (2 ^ k * grain)) :
    2 * unitsOfIndex (millisIndex n) ≤ 2 * (unitsOfIndex (secondsIndex n) * 1000) + 2 ^ k * grain ∧
      2 * (unitsOfIndex (secondsIndex n) * 1000) ≤ 2 * unitsOfIndex (millisIndex n) + 2 ^ k * grain := by
  have hclose := nearestIndex_close_grain (unitsOfIndex (secondsIndex n) * 1000) k Nat.one_pos
    (by rwa [Nat.mul_one])
  rwa [Nat.mul_one, Nat.mul_one] at hclose

theorem clock_close {n : Nat} (k : Nat)
    (h : unitsOfIndex (millisIndex n) < 2 ^ 53 * (2 ^ k * grain * 1000)) :
    2 * (unitsOfIndex (clockIndex n) * 1000) ≤ 2 * unitsOfIndex (millisIndex n) + 2 ^ k * grain * 1000 ∧
      2 * unitsOfIndex (millisIndex n) ≤ 2 * (unitsOfIndex (clockIndex n) * 1000) + 2 ^ k * grain * 1000 :=
  nearestIndex_close_grain _ k (by decide) h

/-- The end of the calendar comes back at most 46 microseconds off, and so does everything before. -/
theorem passage_close {n : Nat} (h : n ≤ 260000000000000000) : passage n ≤ n + 46 ∧ n ≤ passage n + 46 := by
  have hgrain := unitsPerOne_eq_grain
  have hn : unitsPerOne * n ≤ unitsPerOne * 260000000000000000 := Nat.mul_le_mul_left _ h
  have hpos := grain_pos
  obtain ⟨hs, hs'⟩ := seconds_close (n := n) 19 (by omega)
  obtain ⟨hm, hm'⟩ := millis_close (n := n) 29 (by omega)
  obtain ⟨ht, ht'⟩ := clock_close (n := n) 19 (by omega)
  obtain ⟨hp, hp'⟩ := microsOfIndex_close (clockIndex n)
  change 2 * (passage n * unitsPerOne) ≤ _ at hp
  change _ ≤ 2 * (passage n * unitsPerOne) + _ + _ at hp'
  rw [Nat.mul_comm unitsPerOne n] at hs hs'
  constructor
  · by_contra hlt
    have hstep : (n + 47) * unitsPerOne ≤ passage n * unitsPerOne := Nat.mul_le_mul_right _ (by omega)
    rw [Nat.add_mul] at hstep
    omega
  · by_contra hlt
    have hstep : (passage n + 47) * unitsPerOne ≤ n * unitsPerOne := Nat.mul_le_mul_right _ (by omega)
    rw [Nat.add_mul] at hstep
    omega

/-! ### Instants that come back -/

/-- Below 2³¹ seconds all errors together are less than half a microsecond. -/
theorem passage_eq_of_lt {n : Nat} (h : n < 2147483648000000) : passage n = n := by
  have hgrain := unitsPerOne_eq_grain
  have hn : unitsPerOne * n ≤ unitsPerOne * 2147483647999999 := Nat.mul_le_mul_left _ (by omega)
  have hpos := grain_pos
  obtain ⟨hs, hs'⟩ := seconds_close (n := n) 12 (by omega)
  obtain ⟨hm, hm'⟩ := millis_close (n := n) 22 (by omega)
  obtain ⟨ht, ht'⟩ := clock_close (n := n) 13 (by omega)
  exact microsOfIndex_eq_of_close (by omega) (by omega)

/-- From there to 2⁴¹ milliseconds the double of seconds comes back as it was, and is close enough. -/
theorem passage_eq_of_between {n : Nat} (hlow : 2147483648000000 < n) (hhigh : n < 2199023255552000) :
    passage n = n := by
  have hgrain := unitsPerOne_eq_grain
  have hn : unitsPerOne * n ≤ unitsPerOne * 2199023255551999 := Nat.mul_le_mul_left _ (by omega)
  have hn' : unitsPerOne * 2147483648000001 ≤ unitsPerOne * n := Nat.mul_le_mul_left _ hlow
  have hpos := grain_pos
  obtain ⟨hs, hs'⟩ := seconds_close (n := n) 13 (by omega)
  obtain ⟨hm, hm'⟩ := millis_close (n := n) 22 (by omega)
  obtain ⟨k, hk, hbinade⟩ := exists_shift 13
  have hbeyond : 2 ^ (52 + k) < unitsOfIndex (secondsIndex n) := by
    rw [hbinade]
    omega
  have hprevious := Double.unitsOfIndex_pred_add_le hbeyond
  have hnext := Double.add_le_unitsOfIndex_succ hbeyond.le
  -- the way to milliseconds and back is off by less than half of the step to the neighbours
  rw [hk] at hprevious hnext
  have hclock : clockIndex n = secondsIndex n :=
    Double.nearestIndex_eq_of_between (by decide) (by omega) (by omega)
  rw [passage, hclock]
  exact microsOfIndex_eq_of_close (by omega) (by omega)

/-- The first microsecond after 1970 that does not come back. -/
def firstLost : Nat := 2199023255552053

/-- All instants before that one come back. -/
theorem passage_eq_self {n : Nat} (h : n < firstLost) : passage n = n := by
  have hmiddle : passage (2147483648000000) = 2147483648000000 := by decide +kernel
  have hlast : ∀ j < 53, passage (2199023255552000 + j) = 2199023255552000 + j := by decide +kernel
  rw [firstLost] at h
  rcases lt_trichotomy n (2147483648000000) with hlt | rfl | hgt
  · exact passage_eq_of_lt hlt
  · exact hmiddle
  · by_cases hhigh : n < 2199023255552000
    · exact passage_eq_of_between hgt hhigh
    · obtain ⟨j, rfl⟩ := Nat.exists_eq_add_of_le (Nat.not_lt.1 hhigh)
      exact hlast j (by omega)

/-! ### Back through the key -/

/-- The instant that comes back of one. -/
def comesBack (micros : Int) : Int := signed (micros < 0) (passage micros.natAbs)

/-- None of the roundings of an instant near the calendar comes to an infinity. -/
theorem indices_lt {n : Nat} (h : n < 2 ^ 60) :
    secondsIndex n < infinityIndex ∧ millisIndex n < infinityIndex ∧ clockIndex n < infinityIndex := by
  have hgrain := unitsPerOne_eq_grain
  have hn : unitsPerOne * n ≤ unitsPerOne * 2 ^ 60 := Nat.mul_le_mul_left _ h.le
  have hpos := grain_pos
  have hfinite {num den : Nat} (j : Nat) (hj : j ≤ 100) (hden : 0 < den)
      (hnum : num < 2 ^ 53 * (2 ^ j * grain * den)) : nearestIndex num den < infinityIndex := by
    have hshift : 2 ^ (j + 208 * 5) = 2 ^ j * grain := by rw [grain, ← pow_mul, pow_add]
    rw [← hshift] at hnum
    exact Double.nearestIndex_lt_infinityIndex hden (by omega) hnum
  obtain ⟨hs, hs'⟩ := seconds_close (n := n) 42 (by omega)
  obtain ⟨hm, hm'⟩ := millis_close (n := n) 42 (by omega)
  refine ⟨hfinite 42 (by decide) (by decide) (by omega), hfinite 42 (by decide) Nat.one_pos (by omega),
    hfinite 42 (by decide) (by decide) (by omega)⟩

theorem millisOf_eq {micros : Int} (h : micros.natAbs < 2 ^ 60) :
    Key.millisOf micros = Double.ofIndex (micros < 0) (millisIndex micros.natAbs) := by
  obtain ⟨hs, hm, _⟩ := indices_lt h
  rw [Key.millisOf, Double.ofRatio, Double.ofUnitsRatio_of_lt _ hs]
  exact Double.scale_ofIndex _ hs hm

/-- The double of seconds that is made of a key. -/
theorem clock_millisOf {micros : Int} (h : micros.natAbs < 2 ^ 60) :
    (Key.millisOf micros).scale 1 1000 = Double.ofIndex (micros < 0) (clockIndex micros.natAbs) := by
  obtain ⟨_, hm, hc⟩ := indices_lt h
  rw [millisOf_eq h, Double.scale_ofIndex _ hm]
  · rw [Nat.mul_one, clockIndex]
  · rwa [Nat.mul_one]

theorem truncate_ofIndex (negative : Bool) {i : Nat} (h : i < infinityIndex) :
    (Double.ofIndex negative i).truncate = signed negative (unitsOfIndex i / unitsPerOne) := by
  rw [Double.truncate, Double.units_ofIndex _ h]
  cases negative with
  | true =>
      rw [Double.signed_true, Double.signed_true, Int.neg_tdiv]
      rfl
  | false => rfl

/-- What is left of a double of seconds without its whole seconds. -/
theorem fraction_ofIndex (negative : Bool) {i : Nat} (h : i < infinityIndex) :
    (Double.ofIndex negative i).units - signed negative (unitsOfIndex i / unitsPerOne) * unitsPerOne =
      signed negative (unitsOfIndex i % unitsPerOne) := by
  have hsplit : (unitsOfIndex i : Int) = unitsPerOne * ((unitsOfIndex i / unitsPerOne : Nat) : Int) +
      ((unitsOfIndex i % unitsPerOne : Nat) : Int) := by
    exact_mod_cast (Nat.div_add_mod (unitsOfIndex i) unitsPerOne).symm
  rw [Double.units_ofIndex _ h]
  cases negative with
  | true =>
      simp only [Double.signed_true, hsplit]
      ring
  | false =>
      simp only [Double.signed_false, hsplit]
      ring

/-- The microseconds of a double of seconds, on either side of zero. -/
theorem microsOf_ofIndex (negative : Bool) {i : Nat} (h : i < infinityIndex) :
    Key.microsOf (Double.ofIndex negative i) = signed negative (microsOfIndex i) := by
  have hmod := Nat.mod_lt (unitsOfIndex i) Double.unitsPerOne_pos
  have hfinite : nearestIndex (unitsOfIndex i % unitsPerOne * 1000000) 1 < infinityIndex := by
    refine Double.nearestIndex_lt_infinityIndex (k := 1074) Nat.one_pos (by decide) ?_
    rw [← Double.unitsPerOne_eq]
    omega
  simp only [Key.microsOf, truncate_ofIndex _ h, fraction_ofIndex _ h, Double.natAbs_signed]
  rw [Double.ofUnitsRatio_of_lt _ hfinite, Double.index_ofIndex _ (hfinite.trans Double.infinityIndex_lt),
    microsOfIndex]
  -- whole seconds have no rest, whatever their sign
  have hrest : unitsOfIndex i % unitsPerOne = 0 →
      roundDiv (unitsOfIndex (nearestIndex (unitsOfIndex i % unitsPerOne * 1000000) 1)) unitsPerOne = 0 := by
    intro hzero
    rw [hzero, Nat.zero_mul, Double.nearestIndex_zero Nat.one_pos, Double.unitsOfIndex_zero]
    exact Double.roundDiv_zero Double.unitsPerOne_pos
  generalize roundDiv (unitsOfIndex (nearestIndex (unitsOfIndex i % unitsPerOne * 1000000) 1)) unitsPerOne =
    micros at hrest ⊢
  generalize unitsOfIndex i / unitsPerOne = seconds
  generalize unitsOfIndex i % unitsPerOne = rest at hrest ⊢
  clear hmod hfinite
  cases negative with
  | true =>
      simp only [Double.signed_true]
      omega
  | false =>
      simp only [Double.signed_false]
      omega

theorem microsOf_millisOf {micros : Int} (h : micros.natAbs < 2 ^ 60) :
    Key.microsOf ((Key.millisOf micros).scale 1 1000) = comesBack micros := by
  rw [clock_millisOf h, microsOf_ofIndex _ (indices_lt h).2.2, comesBack, passage]

end Instant
end RecordStore
