import RecordStore.Proofs.Key.Decoding
import RecordStore.Value.Equality

/-!
Strict equality of values, told by their keys. Two texts, two rows of bytes and two numbers are
strictly equal exactly when they have the same key in bytes. For whole numbers this is so as long as
they are not rounded when they become keys.
-/

namespace RecordStore

namespace Double

variable {x y : Double} {n : Int}

/-- Two numbers are equal when they have one place on the line. -/
theorem equals_iff (hx : x.isNaN = false) (hy : y.isNaN = false) :
    x.equals y = true ↔ x.extended = y.extended := by
  rw [equals, hx, hy, Bool.not_false, Bool.true_and, Bool.true_and, beq_iff_eq, ← Int.compare_eq_eq,
    compare_rank hx hy]
  exact compare_eq_iff_eq

theorem isNaN_of_isFinite (hx : x.isFinite = true) : x.isNaN = false :=
  isNaN_eq_false_iff.2 (isFinite_iff.1 hx).le

theorem isNaN_of_equalsInt (h : x.equalsInt n = true) : x.isNaN = false :=
  isNaN_of_isFinite (Bool.and_eq_true_iff.1 h).1

theorem units_of_equalsInt (h : x.equalsInt n = true) : x.units = n * unitsPerOne :=
  beq_iff_eq.1 (Bool.and_eq_true_iff.1 h).2

theorem units_withoutNegativeZero (x : Double) : x.withoutNegativeZero.units = x.units := by
  by_cases hz : x.isZero = true
  · have hx : x.units = 0 := by simp [units, isZero_iff.1 hz]
    rw [withoutNegativeZero, if_pos hz, hx]
    rfl
  · rw [withoutNegativeZero, if_neg hz]

/-- A number equals a whole number when it has the place of that on the line. -/
theorem equalsInt_iff (hx : x.isNaN = false) : x.equalsInt n = true ↔
    x.extended = (((n * unitsPerOne : Int) : WithTop Int) : WithBot (WithTop Int)) := by
  rw [equalsInt, Bool.and_eq_true, beq_iff_eq, isFinite_iff, extended]
  have hle := isNaN_eq_false_iff.1 hx
  by_cases hinf : x.isInfinite = true
  · have hindex := isInfinite_iff.1 hinf
    rw [if_pos hinf]
    refine iff_of_false (fun h => absurd h.1 (by omega)) ?_
    cases x.isNegative with
    | true => exact WithBot.bot_ne_coe
    | false => exact fun h => WithTop.top_ne_coe (WithBot.coe_injective h)
  · have hlt : x.index < infinityIndex := lt_of_le_of_ne hle fun h => hinf (isInfinite_iff.2 h)
    rw [if_neg hinf, WithBot.coe_inj, WithTop.coe_inj]
    exact and_iff_right hlt

end Double

namespace Value

/-- A value is a number, and exactly that of a double. As with keys, truth values and NaNs are no
numbers. -/
inductive IsDouble : Value → Double → Prop
  | int {n : Int} {x : Double} (h : x.equalsInt n = true) : IsDouble (.int n) x
  | float {x : Double} (h : x.isNaN = false) : IsDouble (.float x) x

/-- A value is a text, bytes, or a number that is exactly that of a double. -/
inductive IsScalar : Value → Prop
  | text (s : String) : IsScalar (.text s)
  | bytes (b : Bytes) : IsScalar (.bytes b)
  | number {v : Value} {x : Double} (h : v.IsDouble x) : IsScalar v

/-- A value that is a whole number is exactly that of a double. -/
def IsExact (v : Value) : Prop := ∀ n, v = .int n → ∃ x, v.IsDouble x

variable {v w : Value} {x y : Double} {b : Bytes} {s t : String} {k : Key}

/-! ### Numbers -/

theorem IsDouble.isNaN (h : v.IsDouble x) : x.isNaN = false := by
  cases h with
  | int h => exact Double.isNaN_of_equalsInt h
  | float h => exact h

theorem IsDouble.strictKind (h : v.IsDouble x) : v.strictKind = .float := by
  cases h <;> rfl

/-- The numbers that doubles are, are equal when they have one place on the line. -/
theorem equals_iff_of_isDouble (hv : v.IsDouble x) (hw : w.IsDouble y) :
    v.equals w = true ↔ x.extended = y.extended := by
  have hx := hv.isNaN
  have hy := hw.isNaN
  have hpos : (Double.unitsPerOne : Int) ≠ 0 := by exact_mod_cast Double.unitsPerOne_pos.ne'
  rw [equals.eq_def]
  cases hv with
  | int hm =>
      rw [(Double.equalsInt_iff hx).1 hm]
      cases hw with
      | int hn =>
          rw [(Double.equalsInt_iff hy).1 hn, WithBot.coe_inj, WithTop.coe_inj,
            mul_left_inj' hpos]
          exact beq_iff_eq
      | float => exact (Double.equalsInt_iff hy).trans eq_comm
  | float =>
      cases hw with
      | int hn =>
          rw [(Double.equalsInt_iff hy).1 hn]
          exact Double.equalsInt_iff hx
      | float => exact Double.equals_iff hx hy

theorem strictEquals_iff_of_isDouble (hv : v.IsDouble x) (hw : w.IsDouble y) :
    v.strictEquals w = true ↔ x.extended = y.extended := by
  rw [strictEquals, hv.strictKind, hw.strictKind, ← equals_iff_of_isDouble hv hw]
  rfl

/-- A number is no rounded one when it becomes a key. -/
theorem IsDouble.encodeKey (h : v.IsDouble x) : v.encodeKey = .ok (Key.encode (.number x)) := by
  have hx := h.isNaN
  cases h with
  | @int n _ h =>
      have hfinite : x.isFinite = true := (Bool.and_eq_true_iff.1 h).1
      have hround := Double.ofInt?_of_units_eq hfinite (Double.units_of_equalsInt h)
      refine encodeKey_eq_ok_iff.2 ⟨.number x.withoutNegativeZero, ?_, ?_⟩
      · exact Key.ofValue_eq_ok_iff.2 ⟨by rw [Key.check], by rw [Key.convert, hround]⟩
      · rw [Key.encode, Key.encode, Key.encodeDouble_withoutNegativeZero]
  | float =>
      refine encodeKey_eq_ok_iff.2 ⟨.number x, ?_, rfl⟩
      exact Key.ofValue_eq_ok_iff.2 ⟨by rw [Key.check, hx]; rfl, by rw [Key.convert]⟩

end Value

namespace Key

variable {x y : Double} {k l : Key} {v : Value}

theorem encode_number_eq_iff (hx : x.isNaN = false) (hy : y.isNaN = false) :
    encode (.number x) = encode (.number y) ↔ x.extended = y.extended := by
  have hordered : (number x).IsOrdered ∧ (number y).IsOrdered := by
    rw [IsOrdered, IsOrdered]
    exact ⟨hx, hy⟩
  rw [← Bytes.compare_eq_iff, compare_encode hordered.1 hordered.2, compare]
  exact compare_eq_iff_eq

/-- The first byte tells the kind of a key. -/
theorem kindRank_eq_of_encode_eq (h : encode k = encode l) : k.kindRank = l.kindRank := by
  obtain ⟨_, hk⟩ := encode_eq_tag_cons k
  obtain ⟨_, hl⟩ := encode_eq_tag_cons l
  rw [hk, hl] at h
  have htag := compare_tag k l
  rw [List.head_eq_of_cons_eq h, Std.compare_self] at htag
  exact compare_eq_iff_eq.1 htag.symm

theorem encode_text_eq_iff {s t : String} : encode (.text s) = encode (.text t) ↔ s = t := by
  refine ⟨fun h => ?_, by rintro rfl; rfl⟩
  have hs := decodeFrom_text 0 s []
  rw [h, decodeFrom_text] at hs
  cases hs
  rfl

theorem encode_bytes_eq_iff {a b : Bytes} : encode (.bytes a) = encode (.bytes b) ↔ a = b := by
  refine ⟨fun h => ?_, by rintro rfl; rfl⟩
  have ha := decodeFrom_bytes 0 a []
  rw [h, decodeFrom_bytes] at ha
  cases ha
  rfl

/-! ### Values as keys -/

/-- The key that a value becomes, told by what the value is. -/
inductive IsOf : Key → Value → Prop
  | int {n : Int} {x : Double} : IsOf (.number x) (.int n)
  | float {x : Double} (h : x.isNaN = false) : IsOf (.number x) (.float x)
  | date {d : DateTime} {x : Double} : IsOf (.date x) (.date d)
  | text {s : String} : IsOf (.text s) (.text s)
  | bytes {b : Bytes} : IsOf (.bytes b) (.bytes b)
  | array {items : List Key} {v : Value} : IsOf (.array items) v

theorem isOf_of_ofValue (h : ofValue v = .ok k) : k.IsOf v := by
  obtain ⟨hcheck, hconvert⟩ := ofValue_eq_ok_iff.1 h
  cases v with
  | int n =>
      rw [convert] at hconvert
      split at hconvert
      · cases hconvert
        exact .int
      · cases hconvert
  | float x =>
      cases hconvert
      rw [check] at hcheck
      split at hcheck
      · cases hcheck
      · next hx => exact .float (Bool.not_eq_true _ ▸ hx)
  | date d =>
      cases hconvert
      exact .date
  | text s =>
      cases hconvert
      exact .text
  | bytes b =>
      cases hconvert
      exact .bytes
  | list items =>
      obtain ⟨_, _, rfl⟩ := map_eq_ok_iff.1 hconvert
      exact .array
  | tuple items =>
      obtain ⟨_, _, rfl⟩ := map_eq_ok_iff.1 hconvert
      exact .array
  | _ => cases hcheck

end Key

namespace Value

variable {v w : Value} {x : Double} {b : Bytes} {s : String}

/-! ### Values with the key of a text or of bytes -/

theorem encodeKey_eq_text_iff : w.encodeKey = .ok (Key.encode (.text s)) ↔ w = .text s := by
  refine ⟨fun h => ?_, by rintro rfl; rfl⟩
  obtain ⟨k, hk, hencode⟩ := encodeKey_eq_ok_iff.1 h
  have hrank := Key.kindRank_eq_of_encode_eq hencode
  cases Key.isOf_of_ofValue hk with
  | text => rw [Key.encode_text_eq_iff.1 hencode]
  | _ => exact absurd hrank (by simp [Key.kindRank])

theorem encodeKey_eq_bytes_iff : w.encodeKey = .ok (Key.encode (.bytes b)) ↔ w = .bytes b := by
  refine ⟨fun h => ?_, by rintro rfl; rfl⟩
  obtain ⟨k, hk, hencode⟩ := encodeKey_eq_ok_iff.1 h
  have hrank := Key.kindRank_eq_of_encode_eq hencode
  cases Key.isOf_of_ofValue hk with
  | bytes => rw [Key.encode_bytes_eq_iff.1 hencode]
  | _ => exact absurd hrank (by simp [Key.kindRank])

theorem strictEquals_text_iff : w.strictEquals (.text s) = true ↔ w = .text s := by
  cases w with
  | text t => simp [strictEquals, strictKind, kind, equals]
  | descriptor d => cases d <;> simp [strictEquals, strictKind, kind]
  | _ => simp [strictEquals, strictKind, kind]

theorem strictEquals_bytes_iff : w.strictEquals (.bytes b) = true ↔ w = .bytes b := by
  cases w with
  | bytes c => simp [strictEquals, strictKind, kind, equals]
  | descriptor d => cases d <;> simp [strictEquals, strictKind, kind]
  | _ => simp [strictEquals, strictKind, kind]

/-! ### Values with the key of a number -/

/-- A whole number is that of a double when it is that of the one that it is rounded to. -/
theorem exists_isDouble_int_iff {n : Int} :
    (∃ x, (int n).IsDouble x) ↔ (Double.ofInt? n).any (·.equalsInt n) = true := by
  rw [Option.any_eq_true]
  constructor
  · rintro ⟨x, ⟨h⟩⟩
    have hfinite : x.isFinite = true := (Bool.and_eq_true_iff.1 h).1
    refine ⟨_, Double.ofInt?_of_units_eq hfinite (Double.units_of_equalsInt h), ?_⟩
    rw [Double.equalsInt, Double.isFinite, Double.index_withoutNegativeZero,
      Double.units_withoutNegativeZero]
    exact h
  · rintro ⟨x, _, h⟩
    exact ⟨x, .int h⟩

/-- The whole number that a value is. -/
def int? : Value → Option Int
  | int n => some n
  | _ => none

theorem int?_eq_some_iff {n : Int} : v.int? = some n ↔ v = .int n := by
  cases v <;> simp [int?]

instance (v : Value) : Decidable v.IsExact :=
  decidable_of_iff (∀ n ∈ v.int?, (Double.ofInt? n).any (·.equalsInt n) = true) <|
    forall_congr' fun _ => by
      rw [Option.mem_def, int?_eq_some_iff]
      exact forall_congr' fun h => by rw [h, exists_isDouble_int_iff]

theorem exists_isDouble_of_encodeKey (hw : w.IsExact)
    (h : w.encodeKey = .ok (Key.encode (.number x))) : ∃ y, w.IsDouble y := by
  obtain ⟨k, hk, hencode⟩ := encodeKey_eq_ok_iff.1 h
  have hrank := Key.kindRank_eq_of_encode_eq hencode
  cases Key.isOf_of_ofValue hk with
  | int => exact hw _ rfl
  | float hy => exact ⟨_, .float hy⟩
  | _ => exact absurd hrank (by simp [Key.kindRank])

theorem exists_isDouble_of_strictEquals (hv : v.IsDouble x) (hw : w.IsExact)
    (h : w.strictEquals v = true) : ∃ y, w.IsDouble y := by
  obtain ⟨hkind, hequals⟩ := Bool.and_eq_true_iff.1 h
  rw [hv.strictKind] at hkind
  cases w with
  | int n => exact hw n rfl
  | float y =>
      rw [equals.eq_def] at hequals
      cases hv with
      | int => exact ⟨y, .float (Double.isNaN_of_equalsInt hequals)⟩
      | float =>
          have hy := (Bool.and_eq_true_iff.1 (Bool.and_eq_true_iff.1 hequals).1).1
          exact ⟨y, .float (Bool.not_eq_true' _ ▸ hy)⟩
  | descriptor d => cases d <;> cases hkind
  | _ => cases hkind

theorem encodeKey_eq_iff_of_isDouble (hv : v.IsDouble x) (hw : w.IsExact) :
    w.encodeKey = .ok (Key.encode (.number x)) ↔ w.strictEquals v = true := by
  constructor
  · intro h
    obtain ⟨y, hy⟩ := exists_isDouble_of_encodeKey hw h
    have hencode := Except.ok.inj (hy.encodeKey.symm.trans h)
    exact (strictEquals_iff_of_isDouble hy hv).2 ((Key.encode_number_eq_iff hy.isNaN hv.isNaN).1 hencode)
  · intro h
    obtain ⟨y, hy⟩ := exists_isDouble_of_strictEquals hv hw h
    have hextended := (strictEquals_iff_of_isDouble hy hv).1 h
    rw [hy.encodeKey, (Key.encode_number_eq_iff hy.isNaN hv.isNaN).2 hextended]

/-! ### Strict equality -/

/-- A value that is not rounded as a key strictly equals a text, bytes or a number exactly when it has
the key of that. -/
theorem encodeKey_eq_iff_strictEquals (hv : v.IsScalar) (hb : v.encodeKey = .ok b) (hw : w.IsExact) :
    w.encodeKey = .ok b ↔ w.strictEquals v = true := by
  cases hv with
  | text s =>
      cases hb
      exact encodeKey_eq_text_iff.trans strictEquals_text_iff.symm
  | bytes c =>
      cases hb
      exact encodeKey_eq_bytes_iff.trans strictEquals_bytes_iff.symm
  | number hx =>
      cases hx.encodeKey.symm.trans hb
      exact encodeKey_eq_iff_of_isDouble hx hw

/-- Texts, bytes and numbers that need no rounding have keys. -/
theorem IsScalar.exists_encodeKey (h : v.IsScalar) : ∃ b, v.encodeKey = .ok b := by
  cases h with
  | text s => exact ⟨_, rfl⟩
  | bytes b => exact ⟨_, rfl⟩
  | number hx => exact ⟨_, hx.encodeKey⟩

theorem IsScalar.isDateFree (h : v.IsScalar) : v.IsDateFree := by
  cases h with
  | text => trivial
  | bytes => trivial
  | number hx => cases hx <;> trivial

end Value
end RecordStore
