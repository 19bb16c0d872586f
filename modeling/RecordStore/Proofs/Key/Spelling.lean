import RecordStore.Proofs.Key.Decoding

/-!
Encoding undoes decoding. Whatever bytes are read as a key, they are spelled in one way: a tag tells the kind,
and the content is a word, escaped text or bytes, or other keys and an end. So a reader that succeeds has moved
on and stopped inside the bytes, it is never cut short by its bound, and the bytes of a key that is read are
those that it is encoded as, unless there are dates or numbers among them that have other bytes as well.
-/

namespace RecordStore

namespace Utf8

theorem encode_ofList (cs : List Char) : encode (String.ofList cs) = encodeChars cs := by
  rw [encode, String.toList_ofList]

theorem encodeChars_of_decodeChars {fuel : Nat} {data : List UInt8} {cs : List Char}
    (h : decodeChars fuel data = some cs) : encodeChars cs = data := by
  induction fuel generalizing data cs with
  | zero =>
      cases data with
      | nil =>
          cases h
          rfl
      | cons b rest => cases h
  | succ fuel ih =>
      cases data with
      | nil =>
          cases h
          rfl
      | cons b rest =>
          rw [decodeChars] at h
          obtain ⟨c, hc, h⟩ := Option.bind_eq_some_iff.1 h
          obtain ⟨others, hothers, h⟩ := Option.bind_eq_some_iff.1 h
          cases h
          -- a character is taken only if it is encoded by just the bytes that were taken
          have hchar : String.utf8EncodeChar c = b :: rest.take (sizeOf b - 1) := by
            simp only [decodeChar] at hc
            split at hc
            · next heq =>
              cases hc
              exact heq
            · cases hc
          rw [encodeChars, List.flatMap_cons, hchar]
          change b :: (rest.take (sizeOf b - 1) ++ encodeChars others) = _
          rw [ih hothers, List.take_append_drop]

/-- Bytes that are read as a text are the bytes of the text. -/
theorem encode_of_decode? {data : List UInt8} {s : String} (h : decode? data = some s) : encode s = data := by
  obtain ⟨cs, hcs, rfl⟩ := Option.map_eq_some_iff.1 h
  rw [encode_ofList, encodeChars_of_decodeChars hcs]

end Utf8

namespace Key

/-! ### Spelling -/

/-- The word of a double in the order of doubles, where the negative zero has a place of its own. -/
def signedWord (x : Double) : Nat := if x.word < 2 ^ 63 then x.word + 2 ^ 63 else 2 ^ 64 - 1 - x.word

mutual

/-- The bytes that are read as a key. A key is encoded as these, except that it has no negative zeros then. -/
def spell : Key → Bytes
  | number x => numberTag :: wordBytes (signedWord x)
  | date millis => dateTag :: wordBytes (signedWord millis)
  | text s => textTag :: escape (Utf8.encode s)
  | bytes b => bytesTag :: escape b
  | array items => arrayTag :: spellAll items

def spellAll : List Key → Bytes
  | [] => [0]
  | k :: rest => spell k ++ spellAll rest

end

mutual

/-- The value that a key is read as. Only dates may be beyond what can be read. -/
def read : Key → Except FormatFault Value
  | number x => .ok x.normalValue
  | date millis => dateValue millis
  | text s => .ok (.text s)
  | bytes b => .ok (.bytes b)
  | array items => (readAll items).map .list

def readAll : List Key → Except FormatFault (List Value)
  | [] => .ok []
  | k :: rest => do
    let v ← read k
    let items ← readAll rest
    .ok (v :: items)

end

mutual

/-- No date stands in a key at any depth, nor a number that is not one or is the negative zero. -/
def IsPlain : Key → Prop
  | number x => x.isNaN = false ∧ (x.isZero = true → x.isNegative = false)
  | date _ => False
  | array items => AllPlain items
  | _ => True

def AllPlain : List Key → Prop
  | [] => True
  | k :: rest => IsPlain k ∧ AllPlain rest

end

/-! ### Words -/

theorem foldl_bytes_div (l : Bytes) (acc : Nat) :
    l.foldl (fun n b => n * 256 + b.toNat) acc / 256 ^ l.length = acc := by
  induction l generalizing acc with
  | nil => simp
  | cons b rest ih =>
      have hb : b.toNat < 256 := b.toNat_lt
      rw [List.foldl_cons, List.length_cons, Nat.pow_succ, ← Nat.div_div_eq_div_mul, ih]
      omega

theorem lowBytes_foldl (l : Bytes) (acc : Nat) :
    lowBytes (l.foldl (fun n b => n * 256 + b.toNat) acc) l.length = l := by
  induction l generalizing acc with
  | nil => rfl
  | cons b rest ih =>
      have hb : UInt8.ofNat (acc * 256 + b.toNat) = b := by
        rw [← UInt8.toNat_inj, UInt8.toNat_ofNat']
        have := b.toNat_lt
        omega
      rw [List.length_cons, lowBytes, List.foldl_cons, foldl_bytes_div, hb, ih]

theorem wordBytes_ofWordBytes {raw : Bytes} (h : raw.length = 8) : wordBytes (ofWordBytes raw) = raw := by
  have hword := lowBytes_foldl raw 0
  rwa [h] at hword

theorem ofWordBytes_lt {raw : Bytes} (h : raw.length = 8) : ofWordBytes raw < 2 ^ 64 := by
  have hdiv := foldl_bytes_div raw 0
  rw [h, Nat.div_eq_zero_iff] at hdiv
  rcases hdiv with hdiv | hdiv
  · exact absurd hdiv (by decide)
  · exact hdiv

theorem signedWord_lt (x : Double) : signedWord x < 2 ^ 64 := by
  have := x.word_lt
  unfold signedWord
  split <;> omega

theorem signedWord_ofOrderedWord {w : Nat} (h : w < 2 ^ 64) : signedWord (ofOrderedWord w) = w := by
  have hword : (ofOrderedWord w).word = if w < 2 ^ 63 then 2 ^ 64 - 1 - w else w - 2 ^ 63 := by
    rw [ofOrderedWord, Double.word, UInt64.toNat_ofNat']
    exact Nat.mod_eq_of_lt (by split <;> omega)
  rw [signedWord, hword]
  split <;> split <;> omega

theorem ofOrderedWord_signedWord (x : Double) : ofOrderedWord (signedWord x) = x := by
  have hx := x.word_lt
  apply Double.ext_word
  rw [ofOrderedWord, Double.word, UInt64.toNat_ofNat', signedWord]
  rw [Nat.mod_eq_of_lt]
  · split <;> split <;> omega
  · split <;> split <;> omega

theorem decodeDouble_signedWord (x : Double) (s : Bytes) :
    decodeDouble (wordBytes (signedWord x) ++ s) = .ok (x, s) := by
  have htake : (wordBytes (signedWord x) ++ s).take 8 = wordBytes (signedWord x) := List.take_left' rfl
  have hdrop : (wordBytes (signedWord x) ++ s).drop 8 = s := List.drop_left' rfl
  simp [decodeDouble, htake, hdrop, ofWordBytes_wordBytes (signedWord_lt x), ofOrderedWord_signedWord]

/-- A double that is read takes just the bytes of its word. -/
theorem eq_of_decodeDouble {data rest : Bytes} {x : Double} (h : decodeDouble data = .ok (x, rest)) :
    data = wordBytes (signedWord x) ++ rest := by
  simp only [decodeDouble] at h
  split at h
  · cases h
  split at h
  · cases h
  · next hlength =>
    cases h
    have htake : (data.take 8).length = 8 := by
      rw [List.length_take] at hlength ⊢
      omega
    rw [signedWord_ofOrderedWord (ofWordBytes_lt htake), wordBytes_ofWordBytes htake, List.take_append_drop]

/-! ### Content -/

theorem unescape_cons {b : UInt8} (hb : b ≠ 0) (data : Bytes) :
    unescape (b :: data) = (unescape data).map fun (content, rest) => (b :: content, rest) :=
  unescape.eq_5 b data (fun _ h => absurd h hb) (fun _ h => absurd h hb) hb

theorem unescape_corrupt {b : UInt8} (hzero : b ≠ 0) (hescape : b ≠ 255) (data : Bytes) :
    unescape (0 :: b :: data) = .error .corruptEscape :=
  unescape.eq_4 (b :: data) (fun _ h => hzero (List.cons.inj h).1) fun _ h => hescape (List.cons.inj h).1

/-- Content that is read takes just its bytes and its end. -/
theorem eq_of_unescape : ∀ {data content rest : Bytes}, unescape data = .ok (content, rest) →
    data = escape content ++ rest
  | [], _, _, h => nomatch h
  | b :: data, content, rest, h => by
    by_cases hb : b = 0
    · subst hb
      -- a zero is the end, or the first half of a zero of the content
      cases data with
      | nil => cases h
      | cons c data =>
          by_cases hzero : c = 0
          · subst hzero
            cases h
            rfl
          by_cases hescape : c = 255
          · subst hescape
            obtain ⟨⟨others, _⟩, hothers, h⟩ := map_eq_ok_iff.1 h
            cases h
            rw [eq_of_unescape hothers]
            simp [escape]
          · rw [unescape_corrupt hzero hescape] at h
            cases h
    · rw [unescape_cons hb] at h
      obtain ⟨⟨others, _⟩, hothers, h⟩ := map_eq_ok_iff.1 h
      cases h
      rw [eq_of_unescape hothers, escape, if_neg hb]
      rfl

/-! ### Reading what is spelled -/

theorem spell_eq_cons (k : Key) : ∃ rest, spell k = k.tag :: rest := by
  cases k <;> exact ⟨_, rfl⟩

theorem length_spell_pos (k : Key) : 0 < (spell k).length := by
  obtain ⟨rest, h⟩ := spell_eq_cons k
  rw [h]
  exact Nat.zero_lt_succ _

theorem length_spellAll_pos (ks : List Key) : 0 < (spellAll ks).length := by
  cases ks with
  | nil => exact Nat.one_pos
  | cons k ks =>
      rw [spellAll, List.length_append]
      exact Nat.add_pos_left (length_spell_pos k) _

mutual

/-- Where a key is spelled, what is read is its value or the fault of the first of its dates, and the reader
stops after it. -/
theorem decodeFrom_spell : ∀ (k : Key) (fuel : Nat), (spell k).length ≤ fuel + 1 → ∀ s,
    decodeFrom (fuel + 1) (spell k ++ s) = (formatResult k.read).map fun v => (v, s)
  | .number x, fuel, _, s => by
    rw [spell, List.cons_append, decodeFrom, if_pos rfl, decodeDouble_signedWord, formatResult, ok_bind]
    simp only [numberValue_eq_normalValue]
    rfl
  | .date m, fuel, _, s => by
    rw [spell, List.cons_append, decodeFrom, if_neg (by decide), if_pos rfl, decodeDouble_signedWord,
      formatResult, ok_bind, read]
    dsimp only
    cases dateValue m <;> rfl
  | .text t, fuel, _, s => by
    rw [spell, List.cons_append, decodeFrom, if_neg (by decide), if_neg (by decide), if_pos rfl,
      unescape_escape, storeResult, ok_bind]
    simp only [Utf8.decode?_encode]
    rfl
  | .bytes b, fuel, _, s => by
    rw [spell, List.cons_append, decodeFrom, if_neg (by decide), if_neg (by decide), if_neg (by decide),
      if_pos rfl, unescape_escape, storeResult, ok_bind]
    rfl
  | .array ks, fuel, hfuel, s => by
    rw [spell, List.length_cons] at hfuel
    rw [spell, List.cons_append, decodeFrom, if_neg (by decide), if_neg (by decide), if_neg (by decide),
      if_neg (by decide), if_pos rfl, decodeItems_spellAll ks _ (by omega), read]
    cases readAll ks <;> rfl

theorem decodeItems_spellAll : ∀ (ks : List Key) (fuel : Nat), (spellAll ks).length ≤ fuel → ∀ s,
    decodeItems fuel (spellAll ks ++ s) = (formatResult (readAll ks)).map fun items => (items, s)
  | [], fuel, hfuel, s => by
    obtain ⟨fuel, rfl⟩ : ∃ n, fuel = n + 1 := ⟨fuel - 1, by simp [spellAll] at hfuel; omega⟩
    rfl
  | k :: ks, fuel, hfuel, s => by
    have hpos := length_spell_pos k
    have hpos' := length_spellAll_pos ks
    rw [spellAll, List.length_append] at hfuel
    obtain ⟨fuel, rfl⟩ : ∃ n, fuel = n + 2 := ⟨fuel - 2, by omega⟩
    have hk := decodeFrom_spell k fuel (by omega) (spellAll ks ++ s)
    have hks := decodeItems_spellAll ks (fuel + 1) (by omega) s
    obtain ⟨rest, hrest⟩ := spell_eq_cons k
    have htag : k.tag ≠ 0 := fun h => (tag_pos k).ne' (congrArg UInt8.toNat h)
    -- the first byte of an item is its tag, which is not the end of the array
    rw [spellAll, List.append_assoc]
    rw [hrest, List.cons_append] at hk ⊢
    rw [decodeItems, if_neg htag, hk, readAll]
    cases read k with
    | error f => rfl
    | ok v =>
        change (decodeItems (fuel + 1) (spellAll ks ++ s)).bind _ = _
        rw [hks]
        cases readAll ks <;> rfl

end

/-- Some bytes begin with the spelling of a key that is read as a value, and others are left over. -/
def Spells (data : Bytes) (v : Value) (rest : Bytes) : Prop :=
  ∃ k : Key, data = k.spell ++ rest ∧ k.read = .ok v

def SpellsAll (data : Bytes) (items : List Value) (rest : Bytes) : Prop :=
  ∃ ks, data = spellAll ks ++ rest ∧ readAll ks = .ok items

/-- The kinds of keys are told by their tags; only an array needs more than its content. -/
theorem spells_of_decodeFrom {fuel : Nat} {data rest : Bytes} {v : Value}
    (hitems : ∀ {data rest items}, decodeItems fuel data = .ok (items, rest) → SpellsAll data items rest)
    (h : decodeFrom (fuel + 1) data = .ok (v, rest)) : Spells data v rest := by
  cases data with
  | nil => cases h
  | cons tag data =>
      rw [decodeFrom] at h
      split at h
      · next htag =>
        obtain ⟨⟨x, after⟩, hx, h⟩ := bind_eq_ok_iff.1 h
        cases h
        refine ⟨number x, ?_, by rw [read, numberValue_eq_normalValue]⟩
        rw [htag, eq_of_decodeDouble (formatResult_eq_ok_iff.1 hx)]
        rfl
      split at h
      · next htag =>
        obtain ⟨⟨x, after⟩, hx, h⟩ := bind_eq_ok_iff.1 h
        obtain ⟨w, hw, h⟩ := bind_eq_ok_iff.1 h
        cases h
        refine ⟨date x, ?_, formatResult_eq_ok_iff.1 hw⟩
        rw [htag, eq_of_decodeDouble (formatResult_eq_ok_iff.1 hx)]
        rfl
      split at h
      · next htag =>
        obtain ⟨⟨content, after⟩, hcontent, h⟩ := bind_eq_ok_iff.1 h
        dsimp only at h
        split at h
        · next s hs =>
          cases h
          refine ⟨text s, ?_, rfl⟩
          rw [htag, eq_of_unescape (storeResult_eq_ok_iff.1 hcontent), ← Utf8.encode_of_decode? hs]
          rfl
        · cases h
      split at h
      · next htag =>
        obtain ⟨⟨content, after⟩, hcontent, h⟩ := bind_eq_ok_iff.1 h
        cases h
        refine ⟨bytes content, ?_, rfl⟩
        rw [htag, eq_of_unescape (storeResult_eq_ok_iff.1 hcontent)]
        rfl
      split at h
      · next htag =>
        obtain ⟨⟨items, after⟩, hread, h⟩ := bind_eq_ok_iff.1 h
        cases h
        obtain ⟨ks, rfl, hks⟩ := hitems hread
        refine ⟨array ks, ?_, by rw [read, hks, map_ok]⟩
        rw [htag]
        rfl
      · cases h

/-- Items are read up to the end of their array. -/
theorem spellsAll_of_decodeItems {fuel : Nat} {data rest : Bytes} {items : List Value}
    (hfrom : ∀ {data rest v}, decodeFrom fuel data = .ok (v, rest) → Spells data v rest)
    (hitems : ∀ {data rest items}, decodeItems fuel data = .ok (items, rest) → SpellsAll data items rest)
    (h : decodeItems (fuel + 1) data = .ok (items, rest)) : SpellsAll data items rest := by
  cases data with
  | nil => cases h
  | cons b data =>
      rw [decodeItems] at h
      split at h
      · next hb =>
        cases h
        exact ⟨[], by rw [hb]; rfl, rfl⟩
      · obtain ⟨⟨v, after⟩, hv, h⟩ := bind_eq_ok_iff.1 h
        obtain ⟨⟨others, last⟩, hothers, h⟩ := bind_eq_ok_iff.1 h
        cases h
        obtain ⟨k, hk, hread⟩ := hfrom hv
        obtain ⟨ks, hks, hreads⟩ := hitems hothers
        refine ⟨k :: ks, ?_, by rw [readAll, hread, hreads]; rfl⟩
        rw [hk, hks, spellAll, List.append_assoc]

/-- Whatever is read was spelled, by induction on the bound that the readers share. -/
theorem spells_of_decode (fuel : Nat) :
    (∀ {data rest v}, decodeFrom fuel data = .ok (v, rest) → Spells data v rest) ∧
    (∀ {data rest items}, decodeItems fuel data = .ok (items, rest) → SpellsAll data items rest) := by
  induction fuel with
  | zero =>
      constructor
      · intro data rest v h
        cases h
      · intro data rest items h
        cases h
  | succ fuel ih => exact ⟨spells_of_decodeFrom ih.2, spellsAll_of_decodeItems ih.1 ih.2⟩

theorem length_lt_of_decodeFrom {fuel : Nat} {data rest : Bytes} {v : Value}
    (h : decodeFrom fuel data = .ok (v, rest)) : rest.length < data.length := by
  obtain ⟨k, rfl, _⟩ := (spells_of_decode fuel).1 h
  have hpos := length_spell_pos k
  rw [List.length_append]
  omega

/-- A reader that has a bound of twice the bytes reads the same with a larger bound: from each byte on it
takes at most two steps, one for an item of an array and one for the key. -/
theorem decode_fuel_succ (fuel : Nat) :
    (∀ data : Bytes, 0 < fuel → 2 * data.length ≤ fuel → decodeFrom (fuel + 1) data = decodeFrom fuel data) ∧
    ∀ data : Bytes, 2 * data.length + 1 ≤ fuel → decodeItems (fuel + 1) data = decodeItems fuel data := by
  induction fuel with
  | zero => exact ⟨fun _ h => absurd h (Nat.lt_irrefl 0), fun _ h => absurd h (by omega)⟩
  | succ fuel ih =>
      constructor
      · intro data _ hdata
        cases data with
        | nil => rfl
        | cons tag data =>
          have hitems := ih.2 data (by rw [List.length_cons] at hdata; omega)
          rw [decodeFrom, decodeFrom, hitems]
      · intro data hdata
        cases data with
        | nil => rfl
        | cons b data =>
          -- the item is read with the bound that is left, and it leaves fewer bytes to the items after it
          rw [List.length_cons] at hdata
          have hfrom := ih.1 (b :: data) (by omega) (by rw [List.length_cons]; omega)
          rw [decodeItems, decodeItems, hfrom]
          split
          · rfl
          · cases hv : decodeFrom fuel (b :: data) with
            | error f => rfl
            | ok read =>
                obtain ⟨v, rest⟩ := read
                have hrest := length_lt_of_decodeFrom hv
                rw [List.length_cons] at hrest
                have hitems := ih.2 rest (by omega)
                simp only [ok_bind, hitems]

/-- The bound of the readers is never what ends them. -/
theorem decodeFrom_eq_of_le {data : Bytes} {fuel : Nat} (h : 2 * data.length + 1 ≤ fuel) :
    decodeFrom fuel data = decodeFrom (2 * data.length + 1) data := by
  induction fuel, h using Nat.le_induction with
  | base => rfl
  | succ fuel hle ih => rw [(decode_fuel_succ fuel).1 data (by omega) (by omega), ih]

/-! ### One spelling -/

/-- Words of doubles are told apart wherever they stand. -/
theorem eq_of_wordBytes_append {x y : Double} {s t : Bytes}
    (h : wordBytes (signedWord x) ++ s = wordBytes (signedWord y) ++ t) : x = y ∧ s = t := by
  have hx := decodeDouble_signedWord x s
  rw [h, decodeDouble_signedWord y t] at hx
  cases hx
  exact ⟨rfl, rfl⟩

theorem eq_of_escape_append {a b s t : Bytes} (h : escape a ++ s = escape b ++ t) : a = b ∧ s = t := by
  have ha := unescape_escape a s
  rw [h, unescape_escape] at ha
  cases ha
  exact ⟨rfl, rfl⟩

theorem encode_utf8_injective {s t : String} (h : Utf8.encode s = Utf8.encode t) : s = t := by
  have hs := Utf8.decode?_encode s
  rw [h, Utf8.decode?_encode] at hs
  exact (Option.some.inj hs).symm

mutual

/-- The bytes of a key tell the key, and where they end. -/
theorem eq_of_spell_append : ∀ {k l : Key} {s t : Bytes}, spell k ++ s = spell l ++ t → k = l ∧ s = t
  | .number x, l, s, t, h => by
    cases l with
    | number y =>
        obtain ⟨rfl, rfl⟩ := eq_of_wordBytes_append (List.cons.inj h).2
        exact ⟨rfl, rfl⟩
    | _ => exact absurd (List.cons.inj h).1 (by decide)
  | .date x, l, s, t, h => by
    cases l with
    | date y =>
        obtain ⟨rfl, rfl⟩ := eq_of_wordBytes_append (List.cons.inj h).2
        exact ⟨rfl, rfl⟩
    | _ => exact absurd (List.cons.inj h).1 (by decide)
  | .text a, l, s, t, h => by
    cases l with
    | text b =>
        obtain ⟨heq, rfl⟩ := eq_of_escape_append (List.cons.inj h).2
        exact ⟨congrArg text (encode_utf8_injective heq), rfl⟩
    | _ => exact absurd (List.cons.inj h).1 (by decide)
  | .bytes a, l, s, t, h => by
    cases l with
    | bytes b =>
        obtain ⟨rfl, rfl⟩ := eq_of_escape_append (List.cons.inj h).2
        exact ⟨rfl, rfl⟩
    | _ => exact absurd (List.cons.inj h).1 (by decide)
  | .array ks, l, s, t, h => by
    cases l with
    | array ls =>
        obtain ⟨rfl, rfl⟩ := eq_of_spellAll_append (List.cons.inj h).2
        exact ⟨rfl, rfl⟩
    | _ => exact absurd (List.cons.inj h).1 (by decide)

theorem eq_of_spellAll_append : ∀ {ks ls : List Key} {s t : Bytes},
    spellAll ks ++ s = spellAll ls ++ t → ks = ls ∧ s = t
  | [], [], _, _, h => ⟨rfl, (List.cons.inj h).2⟩
  | [], l :: _, s, t, h => by
    obtain ⟨rest, hrest⟩ := spell_eq_cons l
    rw [spellAll, spellAll, hrest] at h
    exact absurd (congrArg UInt8.toNat (List.cons.inj h).1) (tag_pos l).ne
  | k :: _, [], s, t, h => by
    obtain ⟨rest, hrest⟩ := spell_eq_cons k
    rw [spellAll, spellAll, hrest] at h
    exact absurd (congrArg UInt8.toNat (List.cons.inj h).1) (tag_pos k).ne'
  | k :: ks, l :: ls, s, t, h => by
    rw [spellAll, spellAll, List.append_assoc, List.append_assoc] at h
    obtain ⟨rfl, hrest⟩ := eq_of_spell_append h
    obtain ⟨rfl, rfl⟩ := eq_of_spellAll_append hrest
    exact ⟨rfl, rfl⟩

end

theorem spell_injective {k l : Key} (h : k.spell = l.spell) : k = l :=
  (eq_of_spell_append (s := []) (t := []) (by rw [h])).1

/-! ### Encoding what was read -/

theorem orderedWord_eq_signedWord {x : Double} (h : x.isZero = true → x.isNegative = false) :
    orderedWord x = signedWord x := by
  have hx : x.withoutNegativeZero = x := by
    rw [Double.withoutNegativeZero_eq]
    cases hz : x.isZero with
    | false => rw [Bool.not_false, Bool.and_true, Double.ofIndex_index]
    | true => rw [Bool.not_true, Bool.and_false, ← h hz, Double.ofIndex_index]
  rw [orderedWord, hx]
  rfl

mutual

/-- The value of a plain key converts to a key with the same bytes. -/
theorem exists_convert_read : ∀ {k : Key} {v : Value}, k.IsPlain → k.read = .ok v →
    ∃ l, convert v = .ok l ∧ encode l = k.spell
  | .number x, _, hplain, h => by
    cases h
    obtain ⟨_, l, hl, he⟩ := encode_normalValue hplain.1 0
    refine ⟨l, hl, ?_⟩
    rw [he, encode, encodeDouble, orderedWord_eq_signedWord hplain.2, spell]
  | .date _, _, hplain, _ => hplain.elim
  | .text s, _, _, h => by
    cases h
    exact ⟨text s, rfl, rfl⟩
  | .bytes b, _, _, h => by
    cases h
    exact ⟨bytes b, rfl, rfl⟩
  | .array ks, _, hplain, h => by
    obtain ⟨items, hitems, rfl⟩ := map_eq_ok_iff.1 h
    obtain ⟨ls, hls, he⟩ := exists_convertAll_readAll hplain hitems
    exact ⟨array ls, by rw [convert, hls, map_ok], by rw [encode, he, spell]⟩

theorem exists_convertAll_readAll : ∀ {ks : List Key} {items : List Value}, AllPlain ks →
    readAll ks = .ok items → ∃ ls, convertAll items = .ok ls ∧ encodeAll ls = spellAll ks
  | [], _, _, h => by
    cases h
    exact ⟨[], rfl, rfl⟩
  | k :: ks, _, hplain, h => by
    obtain ⟨v, hv, h⟩ := bind_eq_ok_iff.1 h
    obtain ⟨items, hitems, h⟩ := bind_eq_ok_iff.1 h
    cases h
    obtain ⟨l, hl, he⟩ := exists_convert_read hplain.1 hv
    obtain ⟨ls, hls, hes⟩ := exists_convertAll_readAll hplain.2 hitems
    refine ⟨l :: ls, by rw [convertAll, hl, ok_bind, hls, ok_bind], ?_⟩
    rw [encodeAll, spellAll, he, hes]

end

/-- A valid key that is read from plain bytes is encoded as these. -/
theorem encodeKey_of_read {k : Key} {v : Value} (hplain : k.IsPlain) (hvalid : v.isValidKey = true)
    (h : k.read = .ok v) : v.encodeKey = .ok k.spell := by
  obtain ⟨l, hl, he⟩ := exists_convert_read hplain h
  have hcheck : check 0 v = .ok () := by
    rw [Value.isValidKey] at hvalid
    cases hc : check 0 v with
    | error f =>
        rw [hc] at hvalid
        cases hvalid
    | ok => rfl
  exact Value.encodeKey_eq_ok_iff.2 ⟨l, ofValue_eq_ok_iff.2 ⟨hcheck, hl⟩, he⟩

/-- Bytes are decoded when they are all that spells a key, which has a value. -/
theorem decode_eq_ok_iff {data : Bytes} {v : Value} :
    decode data = .ok v ↔ ∃ k : Key, k.spell = data ∧ k.read = .ok v := by
  constructor
  · intro h
    obtain ⟨⟨w, pos⟩, hat, h⟩ := bind_eq_ok_iff.1 h
    obtain ⟨⟨u, rest⟩, hfrom, hat⟩ := bind_eq_ok_iff.1 hat
    cases hat
    dsimp only at h
    split at h
    · next hend =>
      cases h
      obtain ⟨k, hk, hread⟩ := (spells_of_decode _).1 hfrom
      rw [List.drop_zero] at hk
      have hlength := congrArg List.length hk
      rw [List.length_append] at hlength
      have hpos := length_spell_pos k
      obtain rfl := List.eq_nil_of_length_eq_zero (l := rest) (by omega)
      exact ⟨k, by rw [hk, List.append_nil], hread⟩
    · cases h
  · rintro ⟨k, rfl, hread⟩
    have hfrom := decodeFrom_spell k (2 * k.spell.length) (by omega) []
    rw [List.append_nil, hread] at hfrom
    rw [decode, decodeAt, List.drop_zero, hfrom]
    exact if_pos rfl

/-- Some bytes are those of a key without dates, and without numbers that are not one or are the negative
zero. -/
def IsPlainSpelling (data : Bytes) : Prop := ∃ k : Key, k.spell = data ∧ k.IsPlain

/-- The bytes of a text with a zero and of the number a half, in an array. -/
def halfSpelled : Bytes := [80, 48, 97, 0, 255, 0, 0, 16, 191, 224, 0, 0, 0, 0, 0, 0, 0]

end Key
end RecordStore
