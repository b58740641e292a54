import Mathlib.Data.String.Basic
import Mathlib.Tactic.SplitIfs

/-!
# The order of names

Names are compared character by character. Their bytes in UTF-8 stand in the same order.

* `utf8EncodeChar_append_lt`: of two characters the lesser one has the lesser bytes, whatever stands
  behind;
* `utf8Bytes_lt`: so it is for texts.
-/

namespace FuzzyInference

/-! ## Characters -/

theorem ofNat_lt_ofNat_iff {m n : Nat} (hm : m < 256) (hn : n < 256) :
    UInt8.ofNat m < UInt8.ofNat n ↔ m < n := by
  rw [UInt8.lt_iff_toNat_lt, UInt8.toNat_ofNat', UInt8.toNat_ofNat', Nat.mod_eq_of_lt hm,
    Nat.mod_eq_of_lt hn]

theorem ofNat_eq_ofNat_iff {m n : Nat} (hm : m < 256) (hn : n < 256) :
    UInt8.ofNat m = UInt8.ofNat n ↔ m = n := by
  rw [← UInt8.toNat_inj, UInt8.toNat_ofNat', UInt8.toNat_ofNat', Nat.mod_eq_of_lt hm,
    Nat.mod_eq_of_lt hn]

theorem byte_cons_lt_iff {m n : Nat} (hm : m < 256) (hn : n < 256) {us vs : List UInt8} :
    UInt8.ofNat m :: us < UInt8.ofNat n :: vs ↔ m < n ∨ m = n ∧ us < vs := by
  rw [List.cons_lt_cons_iff, ofNat_lt_ofNat_iff hm hn, ofNat_eq_ofNat_iff hm hn]

/-- The first byte tells how many there are, and grows with their number. The bits of a character
are spread over its bytes from the highest to the lowest. -/
theorem utf8EncodeChar_append_lt {c d : Char} (h : c < d) (us vs : List UInt8) :
    String.utf8EncodeChar c ++ us < String.utf8EncodeChar d ++ vs := by
  have less : c.val.toNat < d.val.toNat := h
  have bound : d.val.toNat < 1114112 := by
    rcases d.valid with valid | ⟨-, valid⟩
    · exact Nat.lt_trans valid (by decide)
    · exact valid
  unfold String.utf8EncodeChar
  generalize c.val.toNat = v at less
  generalize d.val.toNat = w at less bound
  have parts (n : Nat) (hn : n < 1114112) :
      n / 64 / 64 = n / 4096 ∧ n / 4096 / 64 = n / 262144 ∧ n / 262144 % 8 = n / 262144 := by
    refine ⟨Nat.div_div_eq_div_mul .., Nat.div_div_eq_div_mul .., Nat.mod_eq_of_lt ?_⟩
    omega
  have first := parts v (by omega)
  have second := parts w bound
  dsimp only
  -- One case for each pair of lengths. Where they differ, the first bytes do.
  split_ifs <;>
    simp (disch := omega) only [List.cons_append, List.nil_append, byte_cons_lt_iff] <;> omega

/-! ## Texts -/

def utf8Bytes (text : String) : List UInt8 := text.toUTF8.data.toList

theorem utf8Bytes_eq_flatMap (text : String) :
    utf8Bytes text = text.toList.flatMap String.utf8EncodeChar := by
  rw [utf8Bytes, ← String.ofList_toList (s := text), String.toUTF8_eq_toByteArray,
    String.toByteArray_ofList, String.toList_ofList]
  exact List.toList_data_toByteArray

theorem flatMap_utf8EncodeChar_lt {cs ds : List Char} (h : cs < ds) :
    cs.flatMap String.utf8EncodeChar < ds.flatMap String.utf8EncodeChar := by
  induction h with
  | @nil d ds =>
    have encoded := String.utf8EncodeChar_ne_nil (c := d)
    obtain ⟨first, others, bytes⟩ := List.exists_cons_of_ne_nil encoded
    rw [List.flatMap_nil, List.flatMap_cons, bytes, List.cons_append]
    exact List.nil_lt_cons _ _
  | rel less => exact utf8EncodeChar_append_lt less _ _
  | cons others ih => exact List.append_left_lt ih

/-- The order of texts is that of their bytes. -/
theorem utf8Bytes_lt {s t : String} (h : s < t) : utf8Bytes s < utf8Bytes t := by
  rw [utf8Bytes_eq_flatMap, utf8Bytes_eq_flatMap]
  exact flatMap_utf8EncodeChar_lt (String.lt_iff.1 h)

end FuzzyInference
