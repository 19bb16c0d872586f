import RecordStore.Proofs.Key.Spelling
import RecordStore.Text.PercentEncoded

/-!
Text as one component of a path can be read back. A byte is written as one character that stands for itself or
as a percent sign with two digits, and the percent sign does not stand for itself; so the characters show where
each byte ends, and the bytes show the text. No byte is written with a slash.
-/

namespace RecordStore
namespace PercentEncoded

variable {b c : UInt8} {s t : List Char} {m n : Nat}

theorem toNat_ofNat (b : UInt8) : (Char.ofNat b.toNat).toNat = b.toNat := by
  have hb := b.toNat_lt
  rw [Char.ofNat, dif_pos (.inl (by omega))]
  rfl

theorem eq_of_hexDigit (hm : m < 16) (hn : n < 16) (h : hexDigit m = hexDigit n) : m = n := by
  have hall : ∀ i j : Fin 16, hexDigit i = hexDigit j → i = j := by decide
  exact congrArg Fin.val (hall ⟨m, hm⟩ ⟨n, hn⟩ h)

theorem hexDigit_ne_slash (hn : n < 16) : hexDigit n ≠ '/' := by
  have hall : ∀ i : Fin 16, hexDigit i ≠ '/' := by decide
  exact hall ⟨n, hn⟩

/-- Neither the percent sign nor the slash stands for itself. -/
theorem ofNat_ne_of_isPlain (h : isPlain b = true) : Char.ofNat b.toNat ≠ '%' ∧ Char.ofNat b.toNat ≠ '/' := by
  constructor
  all_goals
    intro heq
    have hb := congrArg Char.toNat heq
    rw [toNat_ofNat] at hb
    simp [isPlain, hb] at h

theorem encodeByte_ne_nil (b : UInt8) : encodeByte b ≠ [] := by
  unfold encodeByte
  split <;> simp

/-- What a byte is written as shows the byte, and where it ends. -/
theorem eq_of_encodeByte_append (h : encodeByte b ++ s = encodeByte c ++ t) : b = c ∧ s = t := by
  have hb := b.toNat_lt
  have hc := c.toNat_lt
  unfold encodeByte at h
  split at h
  · next hbplain =>
    split at h
    · obtain ⟨hchar, hrest⟩ := List.cons.inj h
      have hnat := congrArg Char.toNat hchar
      rw [toNat_ofNat, toNat_ofNat] at hnat
      exact ⟨UInt8.toNat_inj.1 hnat, hrest⟩
    · exact absurd (List.cons.inj h).1 (ofNat_ne_of_isPlain hbplain).1
  · split at h
    · next hcplain => exact absurd (List.cons.inj h).1.symm (ofNat_ne_of_isPlain hcplain).1
    · obtain ⟨_, hdigits⟩ := List.cons.inj h
      obtain ⟨hhigh, hdigits⟩ := List.cons.inj hdigits
      obtain ⟨hlow, hrest⟩ := List.cons.inj hdigits
      have hdiv := eq_of_hexDigit (by omega) (by omega) hhigh
      have hmod := eq_of_hexDigit (by omega) (by omega) hlow
      refine ⟨UInt8.toNat_inj.1 ?_, hrest⟩
      omega

theorem eq_of_flatMap_encodeByte {bs cs : List UInt8} (h : bs.flatMap encodeByte = cs.flatMap encodeByte) :
    bs = cs := by
  induction bs generalizing cs with
  | nil =>
      cases cs with
      | nil => rfl
      | cons c cs => exact absurd (List.append_eq_nil_iff.1 h.symm).1 (encodeByte_ne_nil c)
  | cons b bs ih =>
      cases cs with
      | nil => exact absurd (List.append_eq_nil_iff.1 h).1 (encodeByte_ne_nil b)
      | cons c cs =>
          obtain ⟨rfl, hrest⟩ := eq_of_encodeByte_append h
          rw [ih hrest]

theorem encode_injective {s t : String} (h : encode s = encode t) : s = t :=
  Key.encode_utf8_injective (eq_of_flatMap_encodeByte h)

theorem slash_not_mem_encode (s : String) : '/' ∉ encode s := by
  intro h
  obtain ⟨b, _, hb⟩ := List.mem_flatMap.1 h
  have hlt := b.toNat_lt
  unfold encodeByte at hb
  split at hb
  · next hplain =>
    exact (ofNat_ne_of_isPlain hplain).2 (List.mem_singleton.1 hb).symm
  · simp only [List.mem_cons, List.not_mem_nil, or_false] at hb
    rcases hb with hb | hb | hb
    · cases hb
    · exact hexDigit_ne_slash (by omega) hb.symm
    · exact hexDigit_ne_slash (by omega) hb.symm

end PercentEncoded
end RecordStore
