import Egregore.Base.Utf8

/-!
# Little-endian integers and slices

Fixed-width little-endian encoding and its inverse, and reading ranges of byte
strings that were assembled by concatenation. `ofLe_leBytes` reads an integer back,
and `slice_append_middle` a part of what was put together.
-/

namespace Egregore.Base

/-- The `width` low bytes of `value`, least significant first. -/
def leBytes : Nat → Nat → Bytes
  | 0, _ => []
  | width + 1, value => UInt8.ofNat value :: leBytes width (value / 256)

/-- The value of a little-endian byte string. -/
def ofLe : Bytes → Nat
  | [] => 0
  | byte :: rest => byte.toNat + 256 * ofLe rest

@[simp] theorem length_leBytes (width value : Nat) : (leBytes width value).length = width := by
  induction width generalizing value with
  | zero => rfl
  | succ width ih => simp [leBytes, ih]

/-- Decoding keeps what the width can hold. -/
theorem ofLe_leBytes (width value : Nat) (bounded : value < 256 ^ width) :
    ofLe (leBytes width value) = value := by
  induction width generalizing value with
  | zero =>
      have : value = 0 := by simpa using bounded
      subst this
      rfl
  | succ width ih =>
      have quotient : value / 256 < 256 ^ width :=
        Nat.div_lt_of_lt_mul (by rwa [Nat.pow_succ, Nat.mul_comm] at bounded)
      simp only [leBytes, ofLe, ih (value / 256) quotient, UInt8.toNat_ofNat']
      omega

/-- `length` bytes from `start`, fewer at the end of the input. -/
def slice (bytes : Bytes) (start length : Nat) : Bytes := (bytes.drop start).take length

/-- A slice inside the middle part of a concatenation is a slice of that part. -/
theorem slice_append_middle (before : Bytes) {middle : Bytes} (after : Bytes) {start length : Nat}
    (inside : start + length ≤ middle.length) :
    slice (before ++ middle ++ after) (before.length + start) length =
      slice middle start length := by
  unfold slice
  rw [List.append_assoc, List.drop_append, List.drop_of_length_le (by omega), List.nil_append,
    Nat.add_sub_cancel_left, List.drop_append_of_le_length (by omega),
    List.take_append_of_le_length (by simp; omega)]

theorem slice_whole {middle : Bytes} : slice middle 0 middle.length = middle := by
  simp [slice]

/-- The exact slice of a middle part. -/
theorem slice_exact {before middle after : Bytes} {start length : Nat}
    (start_eq : start = before.length) (length_eq : length = middle.length) :
    slice (before ++ middle ++ after) start length = middle := by
  subst start_eq length_eq
  have whole : 0 + middle.length ≤ middle.length := by simp
  have := slice_append_middle before after whole
  rwa [Nat.add_zero, slice_whole] at this

/-- A field of a record of byte strings laid back to back. -/
theorem slice_flatten (before : List Bytes) (field : Bytes) (after : List Bytes) (rest : Bytes) :
    slice ((before ++ field :: after).flatten ++ rest) before.flatten.length field.length =
      field := by
  have shape : (before ++ field :: after).flatten ++ rest =
      before.flatten ++ field ++ (after.flatten ++ rest) := by simp
  rw [shape]
  exact slice_exact rfl rfl

@[simp] theorem length_slice {bytes : Bytes} {start length : Nat}
    (inside : start + length ≤ bytes.length) : (slice bytes start length).length = length := by
  simp only [slice, List.length_take, List.length_drop]
  omega

end Egregore.Base
