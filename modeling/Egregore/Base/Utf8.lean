import Mathlib.Algebra.GroupWithZero.Nat
import Mathlib.Data.List.Basic
import Mathlib.Tactic.Common

/-!
# UTF-8 byte strings

Byte strings, the encoding of text into them, decoding with its inverse law, and the
fact that an ASCII byte only ever encodes its own character. Decoding returns a text
exactly for the bytes that encode it: `fromUtf8_eq_some_iff`.
-/

namespace Egregore.Base

/-- A byte string. -/
abbrev Bytes := List UInt8

/-- The UTF-8 encoding of a string, as a list of bytes. -/
def asBytes (text : String) : Bytes := text.toUTF8.data.toList

theorem asBytes_eq_flatMap (text : String) :
    asBytes text = text.toList.flatMap String.utf8EncodeChar := by
  rw [asBytes, String.toUTF8, ← String.utf8Encode_toList, List.utf8Encode]
  simp

theorem asBytes_ofList (chars : List Char) :
    asBytes (String.ofList chars) = chars.flatMap String.utf8EncodeChar := by
  rw [asBytes_eq_flatMap, String.toList_ofList]

theorem asBytes_append (text other : String) :
    asBytes (text ++ other) = asBytes text ++ asBytes other := by
  simp [asBytes_eq_flatMap]

theorem asBytes_injective {text other : String} (same : asBytes text = asBytes other) :
    text = other := by
  have arrays : text.toUTF8.data = other.toUTF8.data := by simpa [asBytes] using same
  exact String.toByteArray_inj.mp (ByteArray.ext arrays)

/-- `str::from_utf8`: the text a byte string encodes, if any. -/
def fromUtf8 (bytes : Bytes) : Option String := String.fromUTF8? bytes.toByteArray

/-- Decoding succeeds exactly on encodings, and inverts them. -/
theorem fromUtf8_eq_some_iff {bytes : Bytes} {text : String} :
    fromUtf8 bytes = some text ↔ asBytes text = bytes := by
  unfold fromUtf8 String.fromUTF8?
  constructor
  · intro decoded
    split at decoded
    · obtain rfl := Option.some.inj decoded
      simp [asBytes, String.fromUTF8]
    · cases decoded
  · rintro rfl
    have back : (asBytes text).toByteArray = text.toByteArray := by
      apply ByteArray.ext
      simp [asBytes]
    have valid : (asBytes text).toByteArray.IsValidUTF8 := back ▸ text.isValidUTF8
    rw [dif_pos valid]
    congr 1
    exact String.toByteArray_inj.mp back

@[simp] theorem fromUtf8_asBytes (text : String) : fromUtf8 (asBytes text) = some text :=
  fromUtf8_eq_some_iff.mpr rfl

/-- An ASCII character is encoded by its own code. -/
theorem utf8EncodeChar_of_ascii {char : Char} (ascii : char.toNat < 128) :
    String.utf8EncodeChar char = [UInt8.ofNat char.toNat] := by
  have small : char.val.toNat ≤ 0x7f := Nat.lt_succ_iff.mp ascii
  simp only [String.utf8EncodeChar, if_pos small]
  rfl

/-- A byte below 128 occurs only in the encoding of the character it is. -/
theorem mem_utf8EncodeChar_of_ascii {byte : UInt8} (ascii : byte.toNat < 128) {char : Char} :
    byte ∈ String.utf8EncodeChar char ↔ char.toNat = byte.toNat := by
  have bound : char.toNat < 0x110000 := by
    have := char.valid
    rcases this with small | ⟨-, large⟩ <;> simp only [Char.toNat, UInt32.toNat] at * <;> omega
  constructor
  · intro member
    simp only [String.utf8EncodeChar] at member
    rw [show char.val.toNat = char.toNat from rfl] at member
    split at member
    · simp only [List.mem_singleton] at member
      subst member
      simp only [UInt8.toNat_ofNat']
      omega
    · exfalso
      split at member
      · simp only [List.mem_cons, List.not_mem_nil, or_false] at member
        rcases member with rfl | rfl <;>
          simp only [UInt8.toNat_ofNat'] at ascii <;> omega
      · split at member
        · simp only [List.mem_cons, List.not_mem_nil, or_false] at member
          rcases member with rfl | rfl | rfl <;>
            simp only [UInt8.toNat_ofNat'] at ascii <;> omega
        · simp only [List.mem_cons, List.not_mem_nil, or_false] at member
          rcases member with rfl | rfl | rfl | rfl <;>
            simp only [UInt8.toNat_ofNat'] at ascii <;> omega
  · intro same
    rw [utf8EncodeChar_of_ascii (same ▸ ascii), List.mem_singleton, same, UInt8.ofNat_toNat]

end Egregore.Base
