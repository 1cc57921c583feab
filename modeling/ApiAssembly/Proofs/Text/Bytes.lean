import Mathlib.Data.List.Basic
import Mathlib.Data.String.Basic

/-!
# The bytes of a text

Texts are compared character by character.  The bytes of a character say how many of them there
are before they say anything else, and higher bits come first, so that texts compare in the same
way byte by byte.
-/

namespace ApiAssembly.Text

/-- The bytes of a text. -/
def bytes (text : String) : List UInt8 :=
  text.toUTF8.data.toList

theorem bytes_eq_flatMap (text : String) :
    bytes text = text.toList.flatMap String.utf8EncodeChar := by
  rw [bytes, String.toUTF8_eq_toByteArray, ← String.utf8Encode_toList, List.utf8Encode,
    List.data_toByteArray]

theorem ofNat_lt_ofNat_iff {first second : Nat} (firstSmall : first < 256)
    (secondSmall : second < 256) : UInt8.ofNat first < UInt8.ofNat second ↔ first < second := by
  rw [UInt8.lt_iff_toNat_lt, UInt8.toNat_ofNat', UInt8.toNat_ofNat', Nat.mod_eq_of_lt firstSmall,
    Nat.mod_eq_of_lt secondSmall]

theorem ofNat_eq_ofNat_iff {first second : Nat} (firstSmall : first < 256)
    (secondSmall : second < 256) : UInt8.ofNat first = UInt8.ofNat second ↔ first = second := by
  rw [← UInt8.toNat_inj, UInt8.toNat_ofNat', UInt8.toNat_ofNat', Nat.mod_eq_of_lt firstSmall,
    Nat.mod_eq_of_lt secondSmall]

/-- The bytes of a smaller character are smaller, whatever follows. -/
theorem utf8EncodeChar_append_lt {first second : Char} (smaller : first < second)
    (front back : List UInt8) :
    String.utf8EncodeChar first ++ front < String.utf8EncodeChar second ++ back := by
  have order : first.val.toNat < second.val.toNat := smaller
  have bound : second.val.toNat < 1114112 := by
    have := second.valid
    simp only [UInt32.isValidChar, Nat.isValidChar] at this
    omega
  rw [String.utf8EncodeChar.eq_1, String.utf8EncodeChar.eq_1]
  generalize first.val.toNat = low at *
  generalize second.val.toNat = high at *
  have twice (code : Nat) : code / 4096 = code / 64 / 64 := by omega
  have thrice (code : Nat) : code / 262144 = code / 64 / 64 / 64 := by omega
  -- one case for each pair of lengths: the first bytes decide between different lengths
  split_ifs <;>
    simp (disch := omega) only [List.cons_append, List.nil_append, List.cons_lt_cons_iff,
      ofNat_lt_ofNat_iff, ofNat_eq_ofNat_iff, twice, thrice] <;> omega

/-- Texts are in the order of their bytes. -/
theorem bytes_lt_bytes {first second : String} (smaller : first < second) :
    bytes first < bytes second := by
  rw [bytes_eq_flatMap, bytes_eq_flatMap]
  have order : first.toList < second.toList := smaller
  generalize first.toList = front at order
  generalize second.toList = back at order
  induction order with
  | nil =>
    rename_i c rest
    obtain ⟨byte, more, encoded⟩ :=
      List.exists_cons_of_ne_nil (String.utf8EncodeChar_ne_nil (c := c))
    rw [List.flatMap_cons, encoded]
    exact List.nil_lt_cons _ _
  | rel smaller => exact utf8EncodeChar_append_lt smaller _ _
  | cons _ ih => exact List.append_left_lt ih

end ApiAssembly.Text
