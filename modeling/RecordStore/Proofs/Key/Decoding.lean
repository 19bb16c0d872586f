import RecordStore.Proofs.Key.Order

/-!
Decoding undoes encoding. A reader that stands before an encoded key takes exactly its bytes,
whatever follows, and yields the key in its normal form: numbers that are whole and small enough as
whole numbers, arrays as lists.
-/

namespace RecordStore

/-- A number in normal form: the whole number of the same value when there is one of at most 2⁵³
either way, and else the double. -/
def Double.normalValue (x : Double) : Value :=
  if x.isFinite = true ∧ x.units % unitsPerOne = 0 ∧ x.units.natAbs ≤ 2 ^ 53 * unitsPerOne then
    .int (x.units / unitsPerOne)
  else .float x

namespace Value

mutual

/-- The normal form of a key: what it is read back as. -/
def keyNorm : Value → Value
  | .int n => ((Double.ofInt? n).map Double.normalValue).getD (.int n)
  | .float x => x.normalValue
  | .list items => .list (keyNormAll items)
  | .tuple items => .list (keyNormAll items)
  | v => v

def keyNormAll : List Value → List Value
  | [] => []
  | v :: rest => keyNorm v :: keyNormAll rest

end

mutual

/-- No date stands in a key, at any depth of its arrays. -/
def IsDateFree : Value → Prop
  | .date _ => False
  | .list items => AllDateFree items
  | .tuple items => AllDateFree items
  | _ => True

def AllDateFree : List Value → Prop
  | [] => True
  | v :: rest => IsDateFree v ∧ AllDateFree rest

end

end Value

namespace Utf8

/-! ### Characters -/

theorem sizeOf_ofNat {m : Nat} (h : m < 256) : sizeOf (UInt8.ofNat m) =
    if m < 0x80 then 1 else if m < 0xe0 then 2 else if m < 0xf0 then 3 else 4 := by
  have hlt (k : UInt8) : UInt8.ofNat m < k ↔ m < k.toNat := by
    rw [UInt8.lt_iff_toNat_lt, UInt8.toNat_ofNat', Nat.mod_eq_of_lt h]
  simp only [sizeOf, hlt]
  rfl

theorem leadBits_ofNat {m : Nat} (h : m < 256) : leadBits (UInt8.ofNat m) =
    if m < 0x80 then m else if m < 0xe0 then m % 32 else if m < 0xf0 then m % 16 else m % 8 := by
  have hlt (k : UInt8) : UInt8.ofNat m < k ↔ m < k.toNat := by
    rw [UInt8.lt_iff_toNat_lt, UInt8.toNat_ofNat', Nat.mod_eq_of_lt h]
  simp only [leadBits, hlt, UInt8.toNat_ofNat', Nat.mod_eq_of_lt h]
  rfl

/-- A continuation byte adds a digit in base 64. -/
theorem sextet_step (n : Nat) :
    n / 64 * 64 + (UInt8.ofNat (n % 64 + 0x80)).toNat % 64 = n := by
  rw [UInt8.toNat_ofNat']
  omega

/-- The bytes of a character: the leading byte tells how many there are, and together with the
continuations it tells the character. -/
theorem utf8EncodeChar_eq_cons (c : Char) : ∃ b tail, String.utf8EncodeChar c = b :: tail ∧
    sizeOf b - 1 = tail.length ∧
    tail.foldl (fun n x => n * 64 + x.toNat % 64) (leadBits b) = c.toNat := by
  rcases utf8EncodeChar_cases c with ⟨hc, ec⟩ | ⟨hc, hc', ec⟩ | ⟨hc, hc', ec⟩ | ⟨hc, hc', ec⟩
  · refine ⟨_, _, ec, ?_, ?_⟩
    · rw [sizeOf_ofNat (by omega), if_pos hc]
      rfl
    · rw [leadBits_ofNat (by omega), if_pos hc]
      rfl
  · refine ⟨_, _, ec, ?_, ?_⟩
    · rw [sizeOf_ofNat (by omega), if_neg (by omega), if_pos (by omega)]
      rfl
    · rw [leadBits_ofNat (by omega), if_neg (by omega), if_pos (by omega),
        show (c.toNat / 64 + 0xc0) % 32 = c.toNat / 64 by omega, List.foldl_cons, List.foldl_nil,
        sextet_step]
  · refine ⟨_, _, ec, ?_, ?_⟩
    · rw [sizeOf_ofNat (by omega), if_neg (by omega), if_neg (by omega), if_pos (by omega)]
      rfl
    · rw [leadBits_ofNat (by omega), if_neg (by omega), if_neg (by omega), if_pos (by omega),
        show (c.toNat / 64 / 64 + 0xe0) % 16 = c.toNat / 64 / 64 by omega, List.foldl_cons,
        List.foldl_cons, List.foldl_nil, sextet_step, sextet_step]
  · refine ⟨_, _, ec, ?_, ?_⟩
    · rw [sizeOf_ofNat (by omega), if_neg (by omega), if_neg (by omega), if_neg (by omega)]
      rfl
    · rw [leadBits_ofNat (by omega), if_neg (by omega), if_neg (by omega), if_neg (by omega),
        show (c.toNat / 64 / 64 / 64 + 0xf0) % 8 = c.toNat / 64 / 64 / 64 by omega,
        List.foldl_cons, List.foldl_cons, List.foldl_cons, List.foldl_nil, sextet_step,
        sextet_step, sextet_step]

theorem decodeChars_encodeChars (cs : List Char) {fuel : Nat}
    (h : (encodeChars cs).length ≤ fuel) : decodeChars fuel (encodeChars cs) = some cs := by
  induction cs generalizing fuel with
  | nil => cases fuel <;> rfl
  | cons c cs ih =>
      obtain ⟨b, tail, hb, hsize, hfold⟩ := utf8EncodeChar_eq_cons c
      have hbytes : encodeChars (c :: cs) = b :: (tail ++ encodeChars cs) := by
        rw [encodeChars, List.flatMap_cons, hb]
        rfl
      rw [hbytes, List.length_cons, List.length_append] at h
      obtain ⟨fuel, rfl⟩ : ∃ n, fuel = n + 1 := ⟨fuel - 1, by omega⟩
      have hchar : decodeChar b (tail ++ encodeChars cs) = some c := by
        simp only [decodeChar, hsize, List.take_left, hfold, Char.ofNat_toNat]
        exact if_pos hb
      rw [hbytes, decodeChars, hchar, hsize, List.drop_left, ih (by omega)]
      rfl

theorem decode?_encode (s : String) : decode? (encode s) = some s := by
  rw [decode?, encode, decodeChars_encodeChars _ le_rfl, Option.map_some, String.ofList_toList]

end Utf8

namespace Key

/-! ### Numbers -/

theorem foldl_lowBytes (w n acc : Nat) :
    (lowBytes w n).foldl (fun m b => m * 256 + b.toNat) acc = acc * 256 ^ n + w % 256 ^ n := by
  induction n generalizing acc with
  | zero => simp [lowBytes, Nat.mod_one]
  | succ n ih =>
      rw [lowBytes, List.foldl_cons, ih, UInt8.toNat_ofNat', mod_pow_succ, Nat.pow_succ]
      ring

theorem ofWordBytes_wordBytes {w : Nat} (h : w < 2 ^ 64) : ofWordBytes (wordBytes w) = w := by
  rw [ofWordBytes, wordBytes_eq_lowBytes, foldl_lowBytes, Nat.zero_mul, Nat.zero_add]
  exact Nat.mod_eq_of_lt (by omega)

theorem ofOrderedWord_orderedWord (x : Double) :
    ofOrderedWord (orderedWord x) = x.withoutNegativeZero := by
  have hw := x.withoutNegativeZero.word_lt
  have hword : (if orderedWord x < 2 ^ 63 then 2 ^ 64 - 1 - orderedWord x
      else orderedWord x - 2 ^ 63) = x.withoutNegativeZero.word := by
    simp only [orderedWord]
    split <;> split <;> omega
  apply Double.ext_word
  rw [ofOrderedWord, hword]
  simp only [Double.word, UInt64.toNat_ofNat']
  exact Nat.mod_eq_of_lt hw

theorem decodeDouble_encodeDouble (x : Double) (s : Bytes) :
    decodeDouble (encodeDouble x ++ s) = .ok (x.withoutNegativeZero, s) := by
  have htake : (encodeDouble x ++ s).take 8 = encodeDouble x := List.take_left' rfl
  have hdrop : (encodeDouble x ++ s).drop 8 = s := List.drop_left' rfl
  have hlen : (encodeDouble x).length = 8 := rfl
  simp only [decodeDouble, htake, hdrop, hlen]
  rw [if_neg (by decide), if_neg (by decide), encodeDouble,
    ofWordBytes_wordBytes (orderedWord_lt x), ofOrderedWord_orderedWord]

theorem encodeDouble_withoutNegativeZero (x : Double) :
    encodeDouble x.withoutNegativeZero = encodeDouble x := by
  rw [encodeDouble, orderedWord, Double.withoutNegativeZero_withoutNegativeZero, encodeDouble,
    orderedWord]

theorem numberValue_eq_normalValue (x : Double) : numberValue x = x.normalValue := by
  have hpos : (0 : Int) < Double.unitsPerOne := by exact_mod_cast Double.unitsPerOne_pos
  by_cases hi : x.units % Double.unitsPerOne = 0
  · obtain ⟨n, hn⟩ := Int.dvd_of_emod_eq_zero hi
    have htrunc : x.truncate = n := by
      rw [Double.truncate, hn, Int.mul_tdiv_cancel_left _ hpos.ne']
    have hdiv : x.units / Double.unitsPerOne = n := by
      rw [hn, Int.mul_ediv_cancel_left _ hpos.ne']
    have habs : n.natAbs ≤ 2 ^ 53 ↔ x.units.natAbs ≤ 2 ^ 53 * Double.unitsPerOne := by
      rw [hn, Int.natAbs_mul, Int.natAbs_natCast, Nat.mul_comm,
        Nat.mul_le_mul_right_iff Double.unitsPerOne_pos]
    have hiff : (x.isIntegral = true ∧ n.natAbs ≤ 2 ^ 53) ↔ (x.isFinite = true ∧
        x.units % Double.unitsPerOne = 0 ∧ x.units.natAbs ≤ 2 ^ 53 * Double.unitsPerOne) := by
      rw [← habs, Double.isIntegral, Bool.and_eq_true, beq_iff_eq, and_assoc]
    simp only [numberValue, Double.normalValue, htrunc, hdiv, hiff]
  · have hint : ¬x.isIntegral = true := by simp [Double.isIntegral, hi]
    rw [numberValue, Double.normalValue, if_neg fun h => hint h.1, if_neg fun h => hi h.2.1]

theorem normalValue_withoutNegativeZero (x : Double) :
    x.withoutNegativeZero.normalValue = x.normalValue := by
  by_cases hz : x.isZero = true
  · have hu (y : Double) (hy : y.index = 0) : y.units = 0 := by simp [Double.units, hy]
    have hx := Double.isZero_iff.1 hz
    have hy : x.withoutNegativeZero.index = 0 := by rw [Double.index_withoutNegativeZero, hx]
    have hf (y : Double) (hy : y.index = 0) : y.isFinite = true := by
      rw [Double.isFinite_iff, hy]
      decide
    have hzero (y : Double) (hy : y.index = 0) : y.normalValue = .int 0 := by
      rw [Double.normalValue, hu y hy, Int.zero_emod, Int.zero_ediv,
        if_pos ⟨hf y hy, rfl, Nat.zero_le _⟩]
    rw [hzero _ hx, hzero _ hy]
  · simp [Double.withoutNegativeZero, hz]

/-- A number in normal form is the same number as a key. -/
theorem normalValue_cases (x : Double) :
    (∃ n, x.normalValue = .int n ∧ Double.ofInt? n = some x.withoutNegativeZero) ∨
      x.normalValue = .float x := by
  by_cases h : x.isFinite = true ∧ x.units % Double.unitsPerOne = 0 ∧
      x.units.natAbs ≤ 2 ^ 53 * Double.unitsPerOne
  · refine .inl ⟨x.units / Double.unitsPerOne, if_pos h, ?_⟩
    exact Double.ofInt?_of_units_eq h.1 (Int.ediv_mul_cancel (Int.dvd_of_emod_eq_zero h.2.1)).symm
  · exact .inr (if_neg h)

/-- The normal form of a number passes for a key with the same bytes. -/
theorem encode_normalValue {x : Double} (hx : x.isNaN = false) (depth : Nat) :
    check depth x.normalValue = .ok () ∧
      ∃ l, convert x.normalValue = .ok l ∧ encode l = encode (number x) := by
  rcases normalValue_cases x with ⟨n, hn, ho⟩ | h
  · refine ⟨by rw [hn, check], number x.withoutNegativeZero, ?_, ?_⟩
    · simp only [hn, convert, ho]
    · rw [encode, encode, encodeDouble_withoutNegativeZero]
  · refine ⟨?_, number x, by rw [h, convert], rfl⟩
    rw [h, check, if_neg (by rw [hx]; exact Bool.false_ne_true)]

theorem keyNorm_normalValue (x : Double) : x.normalValue.keyNorm = x.normalValue := by
  rcases normalValue_cases x with ⟨n, hn, ho⟩ | h
  · rw [hn, Value.keyNorm, ho, Option.map_some, Option.getD_some, normalValue_withoutNegativeZero, hn]
  · rw [h, Value.keyNorm, h]

/-! ### Content -/

theorem unescape_escape (content s : Bytes) : unescape (escape content ++ s) = .ok (content, s) := by
  induction content with
  | nil => rfl
  | cons b rest ih =>
      by_cases hb : b = 0
      · subst hb
        simp [escape, unescape, ih]
      · rw [escape, if_neg hb, List.cons_append]
        simp [unescape, hb, ih]

theorem length_encode_pos (k : Key) : 0 < (encode k).length := by
  obtain ⟨rest, h⟩ := encode_eq_tag_cons k
  rw [h]
  exact Nat.zero_lt_succ _

theorem length_encodeAll_pos (ks : List Key) : 0 < (encodeAll ks).length := by
  cases ks with
  | nil => exact Nat.one_pos
  | cons k ks =>
      rw [encodeAll, List.length_append]
      exact Nat.add_pos_left (length_encode_pos k) _

/-! ### Keys -/

theorem decodeFrom_number (fuel : Nat) (x : Double) (s : Bytes) :
    decodeFrom (fuel + 1) (encode (number x) ++ s) = .ok (x.normalValue, s) := by
  rw [encode, List.cons_append, decodeFrom, if_pos rfl, decodeDouble_encodeDouble, formatResult,
    ok_bind]
  simp only [numberValue_eq_normalValue, normalValue_withoutNegativeZero]

theorem decodeFrom_text (fuel : Nat) (t : String) (s : Bytes) :
    decodeFrom (fuel + 1) (encode (text t) ++ s) = .ok (.text t, s) := by
  rw [encode, List.cons_append, decodeFrom, if_neg (by decide), if_neg (by decide), if_pos rfl,
    unescape_escape, storeResult, ok_bind]
  simp only [Utf8.decode?_encode]

theorem decodeFrom_bytes (fuel : Nat) (b s : Bytes) :
    decodeFrom (fuel + 1) (encode (bytes b) ++ s) = .ok (.bytes b, s) := by
  rw [encode, List.cons_append, decodeFrom, if_neg (by decide), if_neg (by decide),
    if_neg (by decide), if_pos rfl, unescape_escape, storeResult, ok_bind]

theorem decodeFrom_array {fuel : Nat} {ks : List Key} {items : List Value} {s : Bytes}
    (h : decodeItems fuel (encodeAll ks ++ s) = .ok (items, s)) :
    decodeFrom (fuel + 1) (encode (array ks) ++ s) = .ok (.list items, s) := by
  rw [encode, List.cons_append, decodeFrom, if_neg (by decide), if_neg (by decide),
    if_neg (by decide), if_neg (by decide), if_pos rfl, h, ok_bind]

theorem decodeItems_cons {fuel : Nat} {k : Key} {t s : Bytes} {v : Value} {items : List Value}
    (hk : decodeFrom fuel (encode k ++ t) = .ok (v, t))
    (ht : decodeItems fuel t = .ok (items, s)) :
    decodeItems (fuel + 1) (encode k ++ t) = .ok (v :: items, s) := by
  obtain ⟨rest, hrest⟩ := encode_eq_tag_cons k
  have htag : k.tag ≠ 0 := fun h => (tag_pos k).ne' (congrArg UInt8.toNat h)
  rw [hrest, List.cons_append] at hk ⊢
  rw [decodeItems, if_neg htag, hk, ok_bind]
  simp only [ht, ok_bind]

mutual

theorem decodeFrom_encode : ∀ {v : Value} {depth : Nat} {k : Key} {fuel : Nat},
    check depth v = .ok () → convert v = .ok k → v.IsDateFree → (encode k).length ≤ fuel + 1 →
    ∀ s, decodeFrom (fuel + 1) (encode k ++ s) = .ok (v.keyNorm, s)
  | .int n, _, k, _, _, hk, _, _, s => by
    simp only [convert] at hk
    split at hk
    · next x hx =>
      cases hk
      rw [decodeFrom_number, Value.keyNorm, hx, Option.map_some, Option.getD_some]
    · cases hk
  | .float x, _, k, _, _, hk, _, _, s => by
    cases hk
    exact decodeFrom_number _ x s
  | .text t, _, k, _, _, hk, _, _, s => by
    cases hk
    exact decodeFrom_text _ t s
  | .bytes b, _, k, _, _, hk, _, _, s => by
    cases hk
    exact decodeFrom_bytes _ b s
  | .list items, depth, k, fuel, hc, hk, hd, hfuel, s => by
    simp only [check] at hc
    split at hc
    · cases hc
    · simp only [convert] at hk
      obtain ⟨ks, hks, rfl⟩ := map_eq_ok_iff.1 hk
      rw [encode, List.length_cons] at hfuel
      exact decodeFrom_array (decodeItems_encodeAll hc hks hd (by omega) s)
  | .tuple items, depth, k, fuel, hc, hk, hd, hfuel, s => by
    simp only [check] at hc
    split at hc
    · cases hc
    · simp only [convert] at hk
      obtain ⟨ks, hks, rfl⟩ := map_eq_ok_iff.1 hk
      rw [encode, List.length_cons] at hfuel
      exact decodeFrom_array (decodeItems_encodeAll hc hks hd (by omega) s)
  | .date _, _, _, _, _, _, hd, _, _ => hd.elim
  | .null, _, _, _, hc, _, _, _, _ => by cases hc
  | .bool _, _, _, _, hc, _, _, _, _ => by cases hc
  | .set _, _, _, _, hc, _, _, _, _ => by cases hc
  | .dict _, _, _, _, hc, _, _, _, _ => by cases hc
  | .ellipsis, _, _, _, hc, _, _, _, _ => by cases hc
  | .descriptor _, _, _, _, hc, _, _, _, _ => by cases hc
  | .keyRange _, _, _, _, hc, _, _, _, _ => by cases hc
  | .bare _, _, _, _, hc, _, _, _, _ => by cases hc
  | .keyed _ _, _, _, _, hc, _, _, _, _ => by cases hc
  | .callable _, _, _, _, hc, _, _, _, _ => by cases hc

theorem decodeItems_encodeAll : ∀ {items : List Value} {depth : Nat} {ks : List Key} {fuel : Nat},
    checkAll depth items = .ok () → convertAll items = .ok ks → Value.AllDateFree items →
    (encodeAll ks).length ≤ fuel →
    ∀ s, decodeItems fuel (encodeAll ks ++ s) = .ok (Value.keyNormAll items, s)
  | [], _, ks, fuel, _, hk, _, hfuel, s => by
    cases hk
    obtain ⟨fuel, rfl⟩ : ∃ n, fuel = n + 1 := ⟨fuel - 1, by simp [encodeAll] at hfuel; omega⟩
    rfl
  | v :: rest, depth, ks, fuel, hc, hk, hd, hfuel, s => by
    simp only [checkAll] at hc
    simp only [convertAll] at hk
    obtain ⟨_, hv, hrest⟩ := bind_eq_ok_iff.1 hc
    obtain ⟨k, hconv, h⟩ := bind_eq_ok_iff.1 hk
    obtain ⟨ls, hls, h⟩ := bind_eq_ok_iff.1 h
    cases h
    have hpos := length_encode_pos k
    have hpos' := length_encodeAll_pos ls
    rw [encodeAll, List.length_append] at hfuel
    obtain ⟨fuel, rfl⟩ : ∃ n, fuel = n + 2 := ⟨fuel - 2, by omega⟩
    rw [encodeAll, List.append_assoc]
    exact decodeItems_cons (decodeFrom_encode hv hconv hd.1 (by omega) _)
      (decodeItems_encodeAll hrest hls hd.2 (by omega) s)

end

mutual

/-- The normal form of a key is the same key. -/
theorem encode_keyNorm : ∀ {v : Value} {depth : Nat} {k : Key},
    check depth v = .ok () → convert v = .ok k →
    check depth v.keyNorm = .ok () ∧ ∃ l, convert v.keyNorm = .ok l ∧ encode l = encode k
  | .int n, _, k, _, hk => by
    simp only [convert] at hk
    split at hk
    · next x hx =>
      cases hk
      rw [Value.keyNorm, hx, Option.map_some, Option.getD_some]
      exact encode_normalValue (Double.isNaN_of_ofInt? hx) _
    · cases hk
  | .float x, depth, k, hc, hk => by
    cases hk
    simp only [check] at hc
    split at hc
    · cases hc
    · next hx => exact encode_normalValue (by simpa using hx) depth
  | .date d, _, k, hc, hk => ⟨hc, k, hk, rfl⟩
  | .text t, _, k, hc, hk => ⟨hc, k, hk, rfl⟩
  | .bytes b, _, k, hc, hk => ⟨hc, k, hk, rfl⟩
  | .list items, depth, k, hc, hk => by
    simp only [check] at hc
    split at hc
    · cases hc
    · next hdepth =>
      simp only [convert] at hk
      obtain ⟨ks, hks, rfl⟩ := map_eq_ok_iff.1 hk
      obtain ⟨hcheck, ls, hls, he⟩ := encodeAll_keyNormAll hc hks
      refine ⟨by simp only [Value.keyNorm, check, if_neg hdepth, hcheck], array ls, ?_, ?_⟩
      · simp only [Value.keyNorm, convert, hls, map_ok]
      · rw [encode, encode, he]
  | .tuple items, depth, k, hc, hk => by
    simp only [check] at hc
    split at hc
    · cases hc
    · next hdepth =>
      simp only [convert] at hk
      obtain ⟨ks, hks, rfl⟩ := map_eq_ok_iff.1 hk
      obtain ⟨hcheck, ls, hls, he⟩ := encodeAll_keyNormAll hc hks
      refine ⟨by simp only [Value.keyNorm, check, if_neg hdepth, hcheck], array ls, ?_, ?_⟩
      · simp only [Value.keyNorm, convert, hls, map_ok]
      · rw [encode, encode, he]
  | .null, _, _, hc, _ => by cases hc
  | .bool _, _, _, hc, _ => by cases hc
  | .set _, _, _, hc, _ => by cases hc
  | .dict _, _, _, hc, _ => by cases hc
  | .ellipsis, _, _, hc, _ => by cases hc
  | .descriptor _, _, _, hc, _ => by cases hc
  | .keyRange _, _, _, hc, _ => by cases hc
  | .bare _, _, _, hc, _ => by cases hc
  | .keyed _ _, _, _, hc, _ => by cases hc
  | .callable _, _, _, hc, _ => by cases hc

theorem encodeAll_keyNormAll : ∀ {items : List Value} {depth : Nat} {ks : List Key},
    checkAll depth items = .ok () → convertAll items = .ok ks →
    checkAll depth (Value.keyNormAll items) = .ok () ∧
      ∃ ls, convertAll (Value.keyNormAll items) = .ok ls ∧ encodeAll ls = encodeAll ks
  | [], _, ks, hc, hk => ⟨hc, ks, hk, rfl⟩
  | v :: rest, depth, ks, hc, hk => by
    simp only [checkAll] at hc
    simp only [convertAll] at hk
    obtain ⟨_, hv, hrest⟩ := bind_eq_ok_iff.1 hc
    obtain ⟨k, hconv, h⟩ := bind_eq_ok_iff.1 hk
    obtain ⟨ks, hks, h⟩ := bind_eq_ok_iff.1 h
    cases h
    obtain ⟨hcheck, l, hl, he⟩ := encode_keyNorm hv hconv
    obtain ⟨hchecks, ls, hls, hes⟩ := encodeAll_keyNormAll hrest hks
    refine ⟨by simp only [Value.keyNormAll, checkAll, hcheck, hchecks, ok_bind], l :: ls, ?_, ?_⟩
    · simp only [Value.keyNormAll, convertAll, hl, hls, ok_bind]
    · rw [encodeAll, encodeAll, he, hes]

end

/-- Inside any bytes, an encoded key is read as the normal form of the key, and the reader stops
right after it. -/
theorem decodeAt_encode {v : Value} {k : Key} (hd : v.IsDateFree) (h : ofValue v = .ok k)
    (p s : Bytes) :
    decodeAt (p ++ encode k ++ s) p.length = .ok (v.keyNorm, p.length + (encode k).length) := by
  obtain ⟨hc, hk⟩ := ofValue_eq_ok_iff.1 h
  have hdrop : (p ++ encode k ++ s).drop p.length = encode k ++ s := by
    rw [List.append_assoc, List.drop_left]
  have hlen : (p ++ encode k ++ s).length - s.length = p.length + (encode k).length := by
    rw [List.length_append, List.length_append, Nat.add_sub_cancel]
  have hfuel : (encode k).length ≤ 2 * (p ++ encode k ++ s).length + 1 := by
    simp only [List.length_append]
    omega
  rw [decodeAt, hdrop, decodeFrom_encode hc hk hd hfuel, ok_bind]
  simp only [hlen]

end Key

mutual

theorem Value.keyNorm_keyNorm : ∀ v : Value, v.keyNorm.keyNorm = v.keyNorm
  | .int n => by
    rw [keyNorm]
    cases h : Double.ofInt? n with
    | none => rw [Option.map_none, Option.getD_none, keyNorm, h, Option.map_none, Option.getD_none]
    | some x => exact Key.keyNorm_normalValue x
  | .float x => Key.keyNorm_normalValue x
  | .list items => by simp only [keyNorm, keyNormAll_keyNormAll items]
  | .tuple items => by simp only [keyNorm, keyNormAll_keyNormAll items]
  | .null | .bool _ | .text _ | .bytes _ | .date _ | .set _ | .dict _ | .ellipsis | .descriptor _
  | .keyRange _ | .bare _ | .keyed _ _ | .callable _ => rfl

theorem Value.keyNormAll_keyNormAll : ∀ items : List Value,
    keyNormAll (keyNormAll items) = keyNormAll items
  | [] => rfl
  | v :: rest => by
    simp only [keyNormAll, Value.keyNorm_keyNorm v, Value.keyNormAll_keyNormAll rest]

end

theorem Key.decode_encodeKey {v : Value} {b : Bytes} (hd : v.IsDateFree) (h : v.encodeKey = .ok b) :
    Key.decode b = .ok v.keyNorm := by
  obtain ⟨k, hk, rfl⟩ := Value.encodeKey_eq_ok_iff.1 h
  have h0 := Key.decodeAt_encode hd hk [] []
  rw [List.nil_append, List.append_nil, List.length_nil, Nat.zero_add] at h0
  rw [Key.decode, h0, ok_bind]
  exact if_pos rfl

/-- Decoding undoes encoding in any context. The bytes of a key without dates are read back as its
normal form, wherever they stand; the normal form is stable and has the same bytes; and no bytes of
a key begin those of another one. -/
theorem Value.decodeAt_encodeKey {v : Value} {b : Bytes} (hd : v.IsDateFree)
    (h : v.encodeKey = .ok b) :
    (∀ p s : Bytes, Key.decodeAt (p ++ b ++ s) p.length = .ok (v.keyNorm, p.length + b.length)) ∧
      Key.decode b = .ok v.keyNorm ∧
      v.keyNorm.keyNorm = v.keyNorm ∧
      v.keyNorm.encodeKey = .ok b ∧
      ∀ (w : Value) (c : Bytes), w.encodeKey = .ok c → b <+: c → b = c := by
  obtain ⟨k, hk, rfl⟩ := Value.encodeKey_eq_ok_iff.1 h
  have hat := Key.decodeAt_encode hd hk
  refine ⟨hat, ?_, v.keyNorm_keyNorm, ?_, ?_⟩
  · have h0 := hat [] []
    rw [List.nil_append, List.append_nil, List.length_nil, Nat.zero_add] at h0
    rw [Key.decode, h0, ok_bind]
    exact if_pos rfl
  · obtain ⟨hc, hconv⟩ := Key.ofValue_eq_ok_iff.1 hk
    obtain ⟨hc', l, hl, he⟩ := Key.encode_keyNorm hc hconv
    exact Value.encodeKey_eq_ok_iff.2 ⟨l, Key.ofValue_eq_ok_iff.2 ⟨hc', hl⟩, he⟩
  · rintro w c hw ⟨s, hs⟩
    obtain ⟨l, hl, rfl⟩ := Value.encodeKey_eq_ok_iff.1 hw
    rw [Key.eq_nil_of_encode_append (Key.isOrdered_of_ofValue hk) (Key.isOrdered_of_ofValue hl) hs,
      List.append_nil] at hs
    exact hs

/-- A tuple with a zero in a text, the negative zero and a nested array. -/
theorem Value.decodeAt_encodeKey_nested :
    (∀ p s : Bytes, Key.decodeAt (p ++ [80, 48, 0, 255, 0, 0, 16, 128, 0, 0, 0, 0, 0, 0, 0, 80, 16,
        63, 247, 255, 255, 255, 255, 255, 255, 0, 0] ++ s) p.length =
      .ok ((Value.tuple [.text "\x00", .float ⟨0x8000000000000000⟩, .list [.int (-3)]]).keyNorm,
        p.length + 27)) ∧
      Key.decode [80, 48, 0, 255, 0, 0, 16, 128, 0, 0, 0, 0, 0, 0, 0, 80, 16, 63, 247, 255, 255, 255,
        255, 255, 255, 0, 0] =
      .ok (Value.tuple [.text "\x00", .float ⟨0x8000000000000000⟩, .list [.int (-3)]]).keyNorm :=
  have h := Value.decodeAt_encodeKey
    (v := .tuple [.text "\x00", .float ⟨0x8000000000000000⟩, .list [.int (-3)]])
    ⟨trivial, trivial, ⟨trivial, trivial⟩, trivial⟩ (eq_ok_of_toOption (by decide +kernel))
  ⟨h.1, h.2.1⟩

end RecordStore
