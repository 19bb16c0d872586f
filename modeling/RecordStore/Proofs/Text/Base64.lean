import Mathlib.Data.UInt
import RecordStore.Text.Base64

/-!
Base 64 read back. The symbols of a whole group bring the reader back to the start of a group with
three more bytes; the pads after an incomplete one end the text.
-/

namespace RecordStore
namespace Base64

/-- The byte of an ASCII character. -/
def asciiByte (c : Char) : UInt8 := UInt8.ofNat c.toNat

theorem symbol_isAscii {n : Nat} (h : n < 64) : (symbol n).toNat < 128 := by
  revert n
  decide

theorem bits?_symbol {n : Nat} (h : n < 64) :
    asciiByte (symbol n) ≠ 61 ∧ bits? (asciiByte (symbol n)) = some n := by
  revert n
  decide

theorem encode_isAscii (bytes : List UInt8) : ∀ c ∈ encode bytes, c.toNat < 128 := by
  fun_induction encode bytes with
  | case1 => simp
  | case2 a n =>
      have ha := a.toNat_lt
      simp only [List.mem_cons, List.not_mem_nil, or_false, forall_eq_or_imp, forall_eq]
      exact ⟨symbol_isAscii (by omega), symbol_isAscii (by omega), by decide, by decide⟩
  | case3 a b n =>
      have ha := a.toNat_lt
      have hb := b.toNat_lt
      simp only [List.mem_cons, List.not_mem_nil, or_false, forall_eq_or_imp, forall_eq]
      exact ⟨symbol_isAscii (by omega), symbol_isAscii (by omega), symbol_isAscii (by omega),
        by decide⟩
  | case4 a b c rest n ih =>
      have ha := a.toNat_lt
      have hb := b.toNat_lt
      have hc := c.toNat_lt
      simp only [List.mem_cons, forall_eq_or_imp]
      exact ⟨symbol_isAscii (by omega), symbol_isAscii (by omega), symbol_isAscii (by omega),
        symbol_isAscii (by omega), ih⟩

theorem decodeFrom_symbol (p : Progress) {n : Nat} (h : n < 64) (rest : List UInt8) :
    decodeFrom p (asciiByte (symbol n) :: rest) = decodeFrom (p.push n) rest := by
  obtain ⟨hpad, hbits⟩ := bits?_symbol h
  rw [decodeFrom, if_neg hpad, hbits]

theorem ofNat_eq_of_toNat {a : UInt8} {n : Nat} (h : n = a.toNat) : UInt8.ofNat n = a := by
  rw [h, UInt8.ofNat_toNat]

theorem decodeFrom_encode (bytes acc : List UInt8) :
    decodeFrom { bytes := acc } ((encode bytes).map asciiByte) = .ok (acc ++ bytes) := by
  fun_induction encode bytes generalizing acc with
  | case1 => simp [decodeFrom]
  | case2 a n =>
      have ha := a.toNat_lt
      have hbyte : UInt8.ofNat (n / 64 * 4 + n % 64 / 16) = a := ofNat_eq_of_toNat (by omega)
      simp only [List.map_cons, List.map_nil]
      rw [decodeFrom_symbol _ (by omega), decodeFrom_symbol _ (by omega)]
      simp only [Progress.push, hbyte]
      rfl
  | case3 a b n =>
      have ha := a.toNat_lt
      have hb := b.toNat_lt
      have hbyte : UInt8.ofNat (n / 4096 * 4 + n / 64 % 64 / 16) = a :=
        ofNat_eq_of_toNat (by omega)
      have hbyte' : UInt8.ofNat (n / 64 % 64 % 16 * 16 + n % 64 / 4) = b :=
        ofNat_eq_of_toNat (by omega)
      simp only [List.map_cons, List.map_nil]
      rw [decodeFrom_symbol _ (by omega), decodeFrom_symbol _ (by omega),
        decodeFrom_symbol _ (by omega)]
      simp only [Progress.push, hbyte, hbyte', List.append_assoc]
      rfl
  | case4 a b c rest n ih =>
      have ha := a.toNat_lt
      have hb := b.toNat_lt
      have hc := c.toNat_lt
      have hbyte : UInt8.ofNat (n / 262144 * 4 + n / 4096 % 64 / 16) = a :=
        ofNat_eq_of_toNat (by omega)
      have hbyte' : UInt8.ofNat (n / 4096 % 64 % 16 * 16 + n / 64 % 64 / 4) = b :=
        ofNat_eq_of_toNat (by omega)
      have hbyte'' : UInt8.ofNat (n / 64 % 64 % 4 * 64 + n % 64) = c :=
        ofNat_eq_of_toNat (by omega)
      simp only [List.map_cons]
      rw [decodeFrom_symbol _ (by omega), decodeFrom_symbol _ (by omega),
        decodeFrom_symbol _ (by omega), decodeFrom_symbol _ (by omega)]
      simp only [Progress.push, hbyte, hbyte', hbyte'', ih, List.append_assoc, List.cons_append,
        List.nil_append]

theorem decode_encode (bytes : List UInt8) :
    decode ((encode bytes).map asciiByte) = .ok bytes := by
  rw [decode, decodeFrom_encode, List.nil_append]

end Base64
end RecordStore
