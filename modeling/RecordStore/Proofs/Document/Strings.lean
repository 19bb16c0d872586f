import RecordStore.Document.Reader
import RecordStore.Proofs.Results

/-!
Texts in documents read back. A character is written as one row of symbols that the reader takes
as one character: itself, an escape, or its UTF-16 units.
-/

namespace RecordStore
namespace Document
namespace Reader

theorem hexValue?_hexDigit {n : Nat} (h : n < 16) : hexValue? (Quoted.hexDigit n) = some n := by
  revert n
  decide

theorem hex4?_hex4 {n : Nat} (h : n < 65536) (rest : List Char) :
    hex4? (hex4 n ++ rest) = some n := by
  have hdigit (shift : Nat) := hexValue?_hexDigit (n := n / 2 ^ shift % 16) (Nat.mod_lt _ (by decide))
  simp only [hex4?, hex4, List.map_cons, List.map_nil, List.cons_append, List.nil_append,
    List.take_succ_cons, List.take_zero, List.mapM_cons, List.mapM_nil, hdigit, Option.bind_eq_bind,
    Option.bind_some, Option.pure_def]
  congr 1
  omega

theorem length_hex4 (n : Nat) : (hex4 n).length = 4 := rfl

theorem drop_hex4 (n : Nat) (rest : List Char) : (hex4 n ++ rest).drop 4 = rest := rfl

/-- A unit that is no half of a pair is a character. -/
theorem readUnit_hex4 {c : Char} (h : c.toNat < 65536) {rest : List Char} (hr : rest ≠ []) :
    readUnit (hex4 c.toNat ++ rest) = .ok (c, rest) := by
  have hvalid := c.valid
  simp only [UInt32.isValidChar, Nat.isValidChar] at hvalid
  change c.toNat < 55296 ∨ 57343 < c.toNat ∧ c.toNat < 1114112 at hvalid
  have hlength : ¬(hex4 c.toNat ++ rest).length < 5 := by
    have := List.length_pos_iff.2 hr
    rw [List.length_append, length_hex4]
    omega
  simp only [readUnit, if_neg hlength, hex4?_hex4 h, drop_hex4]
  refine (if_neg (by omega)).trans ?_
  rw [unitChar, if_neg (by omega), Char.ofNat_toNat]

/-- Two units that are a pair are a character. -/
theorem readUnit_pair {c : Char} (h : 65536 ≤ c.toNat) {rest : List Char} (hr : rest ≠ []) :
    readUnit (hex4 (0xd800 + (c.toNat - 65536) / 1024) ++
      (unicodeEscape (0xdc00 + (c.toNat - 65536) % 1024) ++ rest)) = .ok (c, rest) := by
  have hvalid := c.valid
  simp only [UInt32.isValidChar, Nat.isValidChar] at hvalid
  change c.toNat < 55296 ∨ 57343 < c.toNat ∧ c.toNat < 1114112 at hvalid
  obtain ⟨high, hhigh⟩ : ∃ n, n = 0xd800 + (c.toNat - 65536) / 1024 := ⟨_, rfl⟩
  obtain ⟨low, hlow⟩ : ∃ n, n = 0xdc00 + (c.toNat - 65536) % 1024 := ⟨_, rfl⟩
  rw [← hhigh, ← hlow]
  have hlength : (unicodeEscape low ++ rest).length = 6 + rest.length := by
    rw [List.length_append]
    rfl
  have hpos := List.length_pos_iff.2 hr
  have hfirst : ¬(hex4 high ++ (unicodeEscape low ++ rest)).length < 5 := by
    rw [List.length_append, length_hex4, hlength]
    omega
  have htake : (unicodeEscape low ++ rest).take 2 = ['\\', 'u'] := rfl
  have hdrop : (unicodeEscape low ++ rest).drop 2 = hex4 low ++ rest := rfl
  have hdrop' : (unicodeEscape low ++ rest).drop 6 = rest := rfl
  simp only [readUnit, if_neg hfirst, hex4?_hex4 (n := high) (by omega), drop_hex4, htake, hdrop,
    hdrop', hlength, hex4?_hex4 (n := low) (by omega)]
  refine (if_pos ⟨by omega, by omega, by omega, trivial⟩).trans ?_
  rw [if_pos (by omega), show 65536 + (high - 0xd800) * 1024 + (low - 0xdc00) = c.toNat by omega, Char.ofNat_toNat]

theorem readChars_plain {c : Char} (hquote : c ≠ '"') (hslash : c ≠ '\\') (h : 32 ≤ c.toNat)
    (start fuel : Nat) (rest : List Char) : readChars start (fuel + 1) (c :: rest) =
      (do let (cs, rest) ← readChars start fuel rest; .ok (c :: cs, rest)) := by
  rw [readChars.eq_def]
  exact (if_neg hquote).trans ((if_neg hslash).trans (if_neg (Nat.not_lt.2 h)))

theorem readChars_unit (start fuel : Nat) (rest : List Char) :
    readChars start (fuel + 1) ('\\' :: 'u' :: rest) =
      (do
        let (c, rest) ← readUnit rest
        let (cs, rest) ← readChars start fuel rest
        .ok (c :: cs, rest)) := rfl

/-- The symbols of a character are read as the character. -/
theorem readChars_escapeChar (start fuel : Nat) (c : Char) {rest : List Char} (hr : rest ≠ []) :
    readChars start (fuel + 1) (escapeChar c ++ rest) =
      (readChars start fuel rest).map fun (cs, rest) => (c :: cs, rest) := by
  have hmap (r : Except ReadFault (List Char × List Char)) :
      (do let (cs, rest) ← r; .ok (c :: cs, rest)) = r.map fun (cs, rest) => (c :: cs, rest) := by
    cases r <;> rfl
  rw [escapeChar]
  split
  · next h => subst h; exact hmap _
  split
  · next h => subst h; exact hmap _
  split
  · next h => subst h; exact hmap _
  split
  · next h => subst h; exact hmap _
  split
  · next h => subst h; exact hmap _
  split
  · next h => subst h; exact hmap _
  split
  · next h => subst h; exact hmap _
  split
  · next hquote hslash _ _ _ _ _ hprintable =>
    rw [List.singleton_append, readChars_plain hquote hslash hprintable.1]
    exact hmap _
  split
  · next hsmall =>
    change readChars start (fuel + 1) ('\\' :: 'u' :: (hex4 c.toNat ++ rest)) = _
    rw [readChars_unit, readUnit_hex4 hsmall hr]
    exact hmap _
  · next hlarge =>
    change readChars start (fuel + 1) ('\\' :: 'u' :: (hex4 (0xd800 + (c.toNat - 65536) / 1024) ++
      (unicodeEscape (0xdc00 + (c.toNat - 65536) % 1024) ++ rest))) = _
    rw [readChars_unit, readUnit_pair (Nat.not_lt.1 hlarge) hr]
    exact hmap _

theorem escapeChar_ne_nil (c : Char) : escapeChar c ≠ [] := by
  unfold escapeChar
  repeat' split
  all_goals exact List.cons_ne_nil _ _

theorem readChars_escaped (start : Nat) (cs rest : List Char) {fuel : Nat}
    (h : (cs.flatMap escapeChar).length < fuel) :
    readChars start fuel (cs.flatMap escapeChar ++ '"' :: rest) = .ok (cs, rest) := by
  induction cs generalizing fuel with
  | nil =>
      obtain ⟨fuel, rfl⟩ : ∃ n, fuel = n + 1 := ⟨fuel - 1, by omega⟩
      rfl
  | cons c cs ih =>
      have hpos := List.length_pos_iff.2 (escapeChar_ne_nil c)
      rw [List.flatMap_cons, List.length_append] at h
      obtain ⟨fuel, rfl⟩ : ∃ n, fuel = n + 1 := ⟨fuel - 1, by omega⟩
      rw [List.flatMap_cons, List.append_assoc, readChars_escapeChar _ _ _ (by simp),
        ih (by omega)]
      rfl

/-- A text is read back up to its closing quote. -/
theorem readString_printString (s : String) (rest : List Char) :
    readString (s.toList.flatMap escapeChar ++ '"' :: rest) = .ok (s, rest) := by
  rw [readString, readChars_escaped, ok_bind]
  · simp only [String.ofList_toList]
  · rw [List.length_append, List.length_cons]
    omega

end Reader
end Document
end RecordStore
