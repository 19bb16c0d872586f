import RecordStore.Document.Reader
import RecordStore.Proofs.Number.Decimal

/-!
Numbers in documents read back. Whole numbers and the three forms of a decimal, positional on
either side of the point and with an exponent, are each taken up to the end of the number, if
something follows that ends a value.
-/

namespace RecordStore
namespace Document
namespace Reader

/-- What remains can follow a value: nothing, a comma, or the end of a list or an object. -/
def IsEnd (rest : List Char) : Prop := ∀ c ∈ rest.head?, c = ',' ∨ c = ']' ∨ c = '\x7d'

/-- No digit comes next. -/
def StopsDigits (rest : List Char) : Prop := ∀ c ∈ rest.head?, c.isDigit = false

theorem IsEnd.stopsDigits {rest : List Char} (h : IsEnd rest) : StopsDigits rest := by
  intro c hc
  rcases h c hc with rfl | rfl | rfl <;> rfl

theorem stopsDigits_cons {c : Char} (h : c.isDigit = false) (rest : List Char) :
    StopsDigits (c :: rest) := by
  intro d hd
  cases hd
  exact h

theorem takeWhile_isDigit {digits rest : List Char} (hd : ∀ c ∈ digits, c.isDigit = true)
    (hr : StopsDigits rest) : (digits ++ rest).takeWhile Char.isDigit = digits := by
  rw [List.takeWhile_append_of_pos hd]
  cases rest with
  | nil => rw [List.takeWhile_nil, List.append_nil]
  | cons c cs => rw [List.takeWhile_cons_of_neg (by simp [hr c rfl]), List.append_nil]

/-- The whole part of a number as it is written: no needless zero in front. -/
structure IsWhole (digits : List Char) : Prop where
  ne_nil : digits ≠ []
  isDigit : ∀ c ∈ digits, c.isDigit = true
  head : digits.head? = some '0' → digits = ['0']

theorem isWhole_digitsOf (n : Nat) : IsWhole (Decimal.digitsOf n) where
  ne_nil := Decimal.digitsOf_ne_nil n
  isDigit _ := Decimal.isDigit_of_mem_digitsOf
  head h := by
    by_cases hn : n = 0
    · rw [hn]
      rfl
    · exact absurd h (Decimal.head?_digitsOf hn)

theorem wholeDigits_append {whole tail : List Char} (hw : IsWhole whole) (ht : StopsDigits tail) :
    wholeDigits (whole ++ tail) = whole := by
  obtain ⟨c, cs, hc⟩ := List.exists_cons_of_ne_nil hw.ne_nil
  by_cases h0 : c = '0'
  · have hwhole := hw.head (by rw [hc, h0]; rfl)
    rw [hwhole]
    rfl
  · rw [hc, List.cons_append, wholeDigits.eq_2 _ (by simpa using h0), ← List.cons_append, ← hc,
      takeWhile_isDigit hw.isDigit ht]

/-- A row of characters after its sign. -/
def signed (negative : Bool) (body : List Char) : List Char :=
  if negative then '-' :: body else body

theorem head?_signed {whole : List Char} (hw : IsWhole whole) (negative : Bool)
    (tail : List Char) : ((signed negative (whole ++ tail)).head? == some '-') = negative := by
  obtain ⟨c, cs, rfl⟩ := List.exists_cons_of_ne_nil hw.ne_nil
  have hc : c ≠ '-' := by
    rintro rfl
    exact absurd (hw.isDigit '-' List.mem_cons_self) (by decide)
  cases negative
  · simpa [signed] using hc
  · rfl

theorem drop_signed (negative : Bool) (body : List Char) :
    (if negative then (signed negative body).drop 1 else signed negative body) = body := by
  cases negative <;> rfl

theorem exponent?_of_isEnd {rest : List Char} (h : IsEnd rest) : exponent? rest = none := by
  cases rest with
  | nil => rfl
  | cons c cs =>
      rw [exponent?, if_neg]
      rcases h c rfl with rfl | rfl | rfl <;> decide

theorem exponent?_sign {negative : Bool} {places rest : List Char} (hne : places ≠ [])
    (hd : ∀ c ∈ places, c.isDigit = true) (hr : IsEnd rest) :
    exponent? ('e' :: (if negative then '-' else '+') :: (places ++ rest)) =
      some (negative, places, places.length + 2) := by
  have htake := takeWhile_isDigit hd hr.stopsDigits
  have hempty : places.isEmpty = false := by simpa using hne
  cases negative <;> simp [exponent?, htake, hempty]

/-- A whole number is read as one. -/
theorem readNumber_int {n : Int} {rest : List Char}
    (hn : (Decimal.digitsOf n.natAbs).length ≤ maxDigits) (hr : IsEnd rest) :
    readNumber (printInt n ++ rest) = .ok (.int n, rest) := by
  have hw := isWhole_digitsOf n.natAbs
  have hprint : printInt n ++ rest =
      signed (decide (n < 0)) (Decimal.digitsOf n.natAbs ++ rest) := by
    by_cases hneg : n < 0 <;> simp [printInt, signed, hneg]
  have hempty : (Decimal.digitsOf n.natAbs).isEmpty = false := by simpa using hw.ne_nil
  have hfraction : fractionDigits rest = [] := by
    cases rest with
    | nil => rfl
    | cons c cs => rcases hr c rfl with rfl | rfl | rfl <;> rfl
  rw [hprint]
  simp only [readNumber, head?_signed hw, drop_signed, wholeDigits_append hw hr.stopsDigits,
    hempty, List.drop_left, hfraction, List.isEmpty_nil, exponent?_of_isEnd hr,
    Bool.false_eq_true, if_false, if_true, if_neg (Nat.not_lt.2 hn), Decimal.ofDigits_digitsOf]
  congr 3
  by_cases hneg : n < 0
  · simp only [hneg, decide_true, if_true]
    omega
  · simp only [hneg, decide_false, Bool.false_eq_true, if_false]
    omega

theorem fractionDigits_append {fraction rest : List Char} (hd : ∀ c ∈ fraction, c.isDigit = true)
    (hr : StopsDigits rest) : fractionDigits ('.' :: (fraction ++ rest)) = fraction :=
  takeWhile_isDigit hd hr

/-- A number with digits after its point is read as a decimal. -/
theorem readNumber_point {whole rest : List Char} (fraction : List Char) (negative : Bool) (hw : IsWhole whole)
    (hne : fraction ≠ []) (hd : ∀ c ∈ fraction, c.isDigit = true) (hr : IsEnd rest) :
    readNumber (signed negative (whole ++ '.' :: (fraction ++ rest))) =
      .ok (.float (Decimal.toDouble negative
        ⟨Decimal.ofDigits (whole ++ fraction), -(fraction.length : Int)⟩), rest) := by
  have hempty : whole.isEmpty = false := by simpa using hw.ne_nil
  have hempty' : fraction.isEmpty = false := by simpa using hne
  simp only [readNumber, head?_signed hw, drop_signed,
    wholeDigits_append hw (stopsDigits_cons (c := '.') rfl _), hempty, List.drop_left,
    fractionDigits_append hd hr.stopsDigits, hempty', Bool.false_eq_true, if_false,
    List.drop_succ_cons, exponent?_of_isEnd hr]

/-- A number with an exponent is read as a decimal. -/
theorem readNumber_exponent {whole fraction rest : List Char} (places : List Char) (negative down : Bool)
    (hw : IsWhole whole) (hd : ∀ c ∈ fraction, c.isDigit = true) (hne : places ≠ [])
    (hp : ∀ c ∈ places, c.isDigit = true) (hr : IsEnd rest) :
    readNumber (signed negative (whole ++ ((if fraction = [] then [] else '.' :: fraction) ++
        'e' :: (if down then '-' else '+') :: (places ++ rest)))) =
      .ok (.float (Decimal.toDouble negative ⟨Decimal.ofDigits (whole ++ fraction),
        (if down then -(Decimal.ofDigits places : Int) else Decimal.ofDigits places) -
          fraction.length⟩), rest) := by
  have hempty : whole.isEmpty = false := by simpa using hw.ne_nil
  have hdrop : ('e' :: (if down then '-' else '+') :: (places ++ rest)).drop (places.length + 2) =
      rest := by
    rw [List.drop_succ_cons, List.drop_succ_cons, List.drop_left]
  by_cases hf : fraction = []
  · subst hf
    have hfraction (cs : List Char) : fractionDigits ('e' :: cs) = [] := rfl
    simp only [readNumber, head?_signed hw, drop_signed, if_true, List.nil_append,
      wholeDigits_append hw (stopsDigits_cons (c := 'e') rfl _), hempty, List.drop_left,
      hfraction, List.isEmpty_nil, exponent?_sign hne hp hr, Bool.false_eq_true, if_false, hdrop,
      List.append_nil]
  · have hempty' : fraction.isEmpty = false := by simpa using hf
    simp only [readNumber, head?_signed hw, drop_signed, if_neg hf, List.cons_append,
      wholeDigits_append hw (stopsDigits_cons (c := '.') rfl _), hempty, List.drop_left,
      fractionDigits_append hd (stopsDigits_cons (c := 'e') rfl _), hempty', Bool.false_eq_true,
      if_false, List.drop_succ_cons, exponent?_sign hne hp hr, hdrop]

/-! ### Decimals -/

/-- A row of characters is what is left of it without the zeros at its end, and these. -/
theorem exists_eq_append_zeros (cs : List Char) :
    ∃ k, cs = (cs.reverse.dropWhile (· == '0')).reverse ++ List.replicate k '0' := by
  refine ⟨(cs.reverse.takeWhile (· == '0')).length, ?_⟩
  have hzeros : cs.reverse.takeWhile (· == '0') =
      List.replicate (cs.reverse.takeWhile (· == '0')).length '0' := by
    rw [List.eq_replicate_iff]
    exact ⟨rfl, fun c hc => beq_iff_eq.1 (List.all_eq_true.1 List.all_takeWhile c hc)⟩
  calc cs = cs.reverse.reverse := cs.reverse_reverse.symm
    _ = (cs.reverse.takeWhile (· == '0') ++ cs.reverse.dropWhile (· == '0')).reverse := by
        rw [List.takeWhile_append_dropWhile]
    _ = _ := by
        rw [List.reverse_append]
        conv_lhs => rw [hzeros, List.reverse_replicate]

/-- The digits that a decimal is written with: those of its number without the zeros at the end. -/
structure IsKept (d : Decimal) (kept : List Char) : Prop where
  isWhole : IsWhole kept
  head : kept.head? ≠ some '0'
  eq : ((Decimal.digitsOf d.digits).reverse.dropWhile (· == '0')).reverse = kept
  toDouble : ∀ negative, d.toDouble negative = Decimal.toDouble negative
    ⟨Decimal.ofDigits kept, d.pointPosition - kept.length⟩

theorem exists_isKept {d : Decimal} (h : d.digits ≠ 0) : ∃ kept, IsKept d kept := by
  obtain ⟨k, hk⟩ := exists_eq_append_zeros (Decimal.digitsOf d.digits)
  refine ⟨_, ?_, ?_, rfl, ?_⟩
  all_goals
    generalize ((Decimal.digitsOf d.digits).reverse.dropWhile (· == '0')).reverse = kept at hk
  · have hne : kept ≠ [] := by
      rintro rfl
      apply h
      rw [← Decimal.ofDigits_digitsOf d.digits, hk, List.nil_append,
        Decimal.ofDigits_replicate_zero]
    refine ⟨hne, fun c hc => ?_, fun h0 => ?_⟩
    · exact Decimal.isDigit_of_mem_digitsOf (n := d.digits) (hk ▸ List.mem_append_left _ hc)
    · refine absurd ?_ (Decimal.head?_digitsOf h)
      rw [hk, List.head?_append, h0, Option.some_or]
  · intro h0
    refine Decimal.head?_digitsOf h ?_
    rw [hk, List.head?_append, h0, Option.some_or]
  · intro negative
    have hn : d.digits = Decimal.ofDigits kept * 10 ^ k := by
      rw [← Decimal.ofDigits_append_zeros, ← hk, Decimal.ofDigits_digitsOf]
    have hlength : (Decimal.digitsOf d.digits).length = kept.length + k := by
      rw [hk, List.length_append, List.length_replicate]
    have hexponent : d.exponent = d.pointPosition - kept.length - k := by
      rw [Decimal.pointPosition, hlength]
      omega
    calc d.toDouble negative
        = Decimal.toDouble negative ⟨d.digits, d.exponent⟩ := rfl
      _ = Decimal.toDouble negative
            ⟨Decimal.ofDigits kept * 10 ^ k, d.pointPosition - kept.length - k⟩ := by
          rw [← hn, ← hexponent]
      _ = _ := Decimal.toDouble_mul _ _ _ _

/-- The text of a decimal in terms of the digits it is written with. -/
theorem text_eq_of_isKept {d : Decimal} {kept : List Char} (h : IsKept d kept) :
    d.text =
      if -4 < d.pointPosition ∧ d.pointPosition ≤ 16 then
        if d.pointPosition ≤ 0 then
          '0' :: '.' :: (List.replicate (-d.pointPosition).toNat '0' ++ kept)
        else
          kept.take d.pointPosition.toNat ++
            List.replicate (d.pointPosition.toNat - (kept.take d.pointPosition.toNat).length) '0' ++
            '.' :: (if (kept.drop d.pointPosition.toNat).isEmpty then ['0']
              else kept.drop d.pointPosition.toNat)
      else
        kept.take 1 ++ ((if kept.drop 1 = [] then [] else '.' :: kept.drop 1) ++
          'e' :: (if decide (d.pointPosition - 1 < 0) then '-' else '+') ::
          (List.replicate (2 - (Decimal.digitsOf (d.pointPosition - 1).natAbs).length) '0' ++
            Decimal.digitsOf (d.pointPosition - 1).natAbs)) := by
  have hempty : kept.isEmpty = false := by simpa using h.isWhole.ne_nil
  have hpoint : ((Decimal.digitsOf d.digits).length : Int) + d.exponent = d.pointPosition := rfl
  simp only [Decimal.text, h.eq, hempty, hpoint, Bool.false_eq_true, if_false]
  split
  · rfl
  · obtain ⟨c, cs, hc⟩ := List.exists_cons_of_ne_nil h.isWhole.ne_nil
    subst hc
    cases cs <;> simp

theorem isDigit_of_mem_zeros {n : Nat} {c : Char} (h : c ∈ List.replicate n '0') :
    c.isDigit = true := by
  rw [List.eq_of_mem_replicate h]
  rfl

/-- Digits that are kept still have a first one when some are cut off behind it. -/
theorem isWhole_take {d : Decimal} {kept : List Char} (h : IsKept d kept) {n : Nat} (hn : 0 < n) :
    IsWhole (kept.take n) := by
  obtain ⟨c, cs, hc⟩ := List.exists_cons_of_ne_nil h.isWhole.ne_nil
  obtain ⟨m, rfl⟩ : ∃ m, n = m + 1 := ⟨n - 1, by omega⟩
  refine ⟨by rw [hc]; exact List.cons_ne_nil _ _,
    fun c hc => h.isWhole.isDigit c (List.mem_of_mem_take hc), fun h0 => absurd ?_ h.head⟩
  rw [hc] at h0
  rwa [hc]

theorem isWhole_append_zeros {d : Decimal} {kept : List Char} (h : IsKept d kept) (n : Nat) :
    IsWhole (kept ++ List.replicate n '0') := by
  refine ⟨fun h0 => h.isWhole.ne_nil (List.append_eq_nil_iff.1 h0).1,
    fun c hc => (List.mem_append.1 hc).elim (h.isWhole.isDigit c) isDigit_of_mem_zeros, ?_⟩
  obtain ⟨c, cs, hc⟩ := List.exists_cons_of_ne_nil h.isWhole.ne_nil
  intro h0
  refine absurd ?_ h.head
  rwa [hc] at h0 ⊢

section Layout

variable {d : Decimal} {kept rest : List Char} {point : Int}

/-- Zeros between the point and the first digit. -/
theorem readNumber_zeros_digits (h : IsKept d kept) (negative : Bool) (hpoint : point ≤ 0)
    (hr : IsEnd rest) :
    readNumber (signed negative (Decimal.digitsOf 0 ++
        '.' :: (List.replicate (-point).toNat '0' ++ kept ++ rest))) =
      .ok (.float (Decimal.toDouble negative ⟨Decimal.ofDigits kept, point - kept.length⟩), rest) := by
  have hread := readNumber_point (List.replicate (-point).toNat '0' ++ kept)
    negative (isWhole_digitsOf 0)
    (fun h0 => h.isWhole.ne_nil (List.append_eq_nil_iff.1 h0).2)
    (fun c hc => (List.mem_append.1 hc).elim isDigit_of_mem_zeros (h.isWhole.isDigit c)) hr
  refine hread.trans ?_
  have hdigits : Decimal.ofDigits (Decimal.digitsOf 0 ++
      (List.replicate (-point).toNat '0' ++ kept)) = Decimal.ofDigits kept := by
    rw [Decimal.ofDigits_append, Decimal.ofDigits_digitsOf, Nat.zero_mul, Nat.zero_add,
      Decimal.ofDigits_zeros_append]
  rw [hdigits, List.length_append, List.length_replicate]
  congr 5
  omega

/-- All digits before the point, with zeros up to it. -/
theorem readNumber_digits_zeros (h : IsKept d kept) (negative : Bool)
    (hlength : kept.length ≤ point.toNat) (hpoint : 0 < point) (hr : IsEnd rest) :
    readNumber (signed negative (kept ++ List.replicate (point.toNat - kept.length) '0' ++
        '.' :: (['0'] ++ rest))) =
      .ok (.float (Decimal.toDouble negative ⟨Decimal.ofDigits kept, point - kept.length⟩), rest) := by
  have hread := readNumber_point ['0'] negative
    (isWhole_append_zeros h (point.toNat - kept.length)) (List.cons_ne_nil _ _)
    (fun c hc => isDigit_of_mem_zeros (n := 1) hc) hr
  refine hread.trans ?_
  have hdigits : Decimal.ofDigits (kept ++ List.replicate (point.toNat - kept.length) '0' ++
      ['0']) = Decimal.ofDigits kept * 10 ^ (point.toNat - kept.length + 1) := by
    rw [← Decimal.ofDigits_append_zeros, List.replicate_succ', List.append_assoc]
  rw [hdigits, ← Decimal.toDouble_mul negative (Decimal.ofDigits kept)
    (point.toNat - kept.length + 1) (point - kept.length)]
  congr 5
  simp only [List.length_singleton]
  omega

/-- The point among the digits. -/
theorem readNumber_digits_point_digits (h : IsKept d kept) (negative : Bool)
    (hlength : point.toNat < kept.length) (hpoint : 0 < point) (hr : IsEnd rest) :
    readNumber (signed negative (kept.take point.toNat ++ '.' :: (kept.drop point.toNat ++ rest))) =
      .ok (.float (Decimal.toDouble negative ⟨Decimal.ofDigits kept, point - kept.length⟩), rest) := by
  have hne : kept.drop point.toNat ≠ [] := by
    rw [Ne, List.drop_eq_nil_iff]
    exact Nat.not_le.2 hlength
  have hread := readNumber_point _ negative (isWhole_take h (by omega : 0 < point.toNat)) hne
    (fun c hc => h.isWhole.isDigit c (List.mem_of_mem_drop hc)) hr
  refine hread.trans ?_
  rw [List.take_append_drop, List.length_drop]
  congr 5
  omega

/-- One digit before the point, and an exponent. -/
theorem readNumber_digit_exponent (h : IsKept d kept) (negative : Bool) (hr : IsEnd rest) :
    readNumber (signed negative (kept.take 1 ++
        ((if kept.drop 1 = [] then [] else '.' :: kept.drop 1) ++
          'e' :: (if decide (point - 1 < 0) then '-' else '+') ::
          (List.replicate (2 - (Decimal.digitsOf (point - 1).natAbs).length) '0' ++
            Decimal.digitsOf (point - 1).natAbs ++ rest)))) =
      .ok (.float (Decimal.toDouble negative ⟨Decimal.ofDigits kept, point - kept.length⟩), rest) := by
  have hread := readNumber_exponent
    (List.replicate (2 - (Decimal.digitsOf (point - 1).natAbs).length) '0' ++
      Decimal.digitsOf (point - 1).natAbs)
    negative (decide (point - 1 < 0)) (isWhole_take h Nat.one_pos)
    (fun c hc => h.isWhole.isDigit c (List.mem_of_mem_drop (i := 1) hc))
    (fun h0 => Decimal.digitsOf_ne_nil _ (List.append_eq_nil_iff.1 h0).2)
    (fun c hc => (List.mem_append.1 hc).elim isDigit_of_mem_zeros Decimal.isDigit_of_mem_digitsOf) hr
  refine hread.trans ?_
  have hpos : 0 < kept.length := List.length_pos_iff.2 h.isWhole.ne_nil
  rw [List.take_append_drop, List.length_drop, Decimal.ofDigits_zeros_append,
    Decimal.ofDigits_digitsOf]
  congr 5
  by_cases hdown : point - 1 < 0
  · simp only [hdown, decide_true, if_true]
    omega
  · simp only [hdown, decide_false, Bool.false_eq_true, if_false]
    omega

end Layout

/-- The text of a decimal is read as the decimal. -/
theorem readNumber_text_of_isKept {d : Decimal} {kept rest : List Char} (h : IsKept d kept)
    (negative : Bool) (hr : IsEnd rest) :
    readNumber (signed negative (d.text ++ rest)) = .ok (.float (d.toDouble negative), rest) := by
  rw [h.toDouble, text_eq_of_isKept h]
  generalize d.pointPosition = point
  by_cases hrange : -4 < point ∧ point ≤ 16
  · rw [if_pos hrange]
    by_cases hpoint : point ≤ 0
    · rw [if_pos hpoint]
      exact readNumber_zeros_digits h negative hpoint hr
    · rw [if_neg hpoint]
      by_cases hlength : kept.length ≤ point.toNat
      · rw [List.take_of_length_le hlength, List.drop_eq_nil_of_le hlength, List.isEmpty_nil,
          if_pos rfl, List.append_assoc, List.cons_append]
        exact readNumber_digits_zeros h negative hlength (Int.not_le.1 hpoint) hr
      · have hinside := Nat.lt_of_not_le hlength
        have hempty : (kept.drop point.toNat).isEmpty = false := by
          rw [List.isEmpty_eq_false_iff, Ne, List.drop_eq_nil_iff]
          exact hlength
        rw [List.length_take_of_le hinside.le, Nat.sub_self, List.replicate_zero, List.append_nil,
          hempty, if_neg Bool.false_ne_true, List.append_assoc, List.cons_append]
        exact readNumber_digits_point_digits h negative hinside (Int.not_le.1 hpoint) hr
  · rw [if_neg hrange, List.append_assoc, List.append_assoc, List.cons_append, List.cons_append]
    exact readNumber_digit_exponent h negative hr

/-- The text of a number is read as the number. -/
theorem readNumber_decimalText {x : Double} (hx : x.isFinite = true) {rest : List Char}
    (hr : IsEnd rest) : readNumber (x.decimalText ++ rest) = .ok (.float x, rest) := by
  have hi := Double.isFinite_iff.1 hx
  have hdouble : (Decimal.shortest x).toDouble x.isNegative = x := by
    rw [Decimal.toDouble_of_toDouble_false hi.le (Decimal.toDouble_shortest hx),
      Double.ofIndex_index]
  have htext : x.decimalText ++ rest = signed x.isNegative ((Decimal.shortest x).text ++ rest) := by
    simp only [Double.decimalText, signed]
    split <;> rfl
  rw [htext]
  by_cases h0 : (Decimal.shortest x).digits = 0
  · have hz : x.isZero = true := by
      have hshortest := Decimal.toDouble_shortest hx
      rw [Decimal.toDouble, if_pos (.inl h0)] at hshortest
      have hindex := congrArg Double.index hshortest
      rw [Double.index_ofIndex _ (by decide), Double.index_ofIndex _ x.index_lt] at hindex
      exact Double.isZero_iff.2 hindex.symm
    have hzero : Decimal.shortest x = ⟨0, 0⟩ := by rw [Decimal.shortest, if_pos hz]
    rw [hzero] at hdouble ⊢
    have hread := readNumber_point ['0'] x.isNegative (isWhole_digitsOf 0)
      (List.cons_ne_nil _ _) (fun _ => isDigit_of_mem_zeros (n := 1)) hr
    refine hread.trans ?_
    rw [show Decimal.ofDigits (Decimal.digitsOf 0 ++ ['0']) = 0 from rfl, Decimal.toDouble_zero,
      ← Decimal.toDouble_zero _ 0, hdouble]
  · obtain ⟨kept, hkept⟩ := exists_isKept h0
    rw [readNumber_text_of_isKept hkept _ hr, hdouble]

end Reader
end Document
end RecordStore
