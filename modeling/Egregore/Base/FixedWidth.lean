import Egregore.Base.OrderedMap
import Mathlib.Data.Nat.Digits.Lemmas

/-!
# Numbers in a fixed width

Texts of one width compare by their fronts first, so that numbers written with a fixed number of
digits compare as texts the way they compare as numbers, field by field. `charOrder_padded` is the
comparison of one number, and `charOrder_append` puts the fields together.
-/

namespace Egregore.Base

/-! ## Fronts of one length -/

section Fronts

variable {α : Type*} [Ord α]

/-- Lists compare by fronts of one length, then by what follows. -/
theorem compare_append {front other : List α} (same : front.length = other.length)
    (back follow : List α) :
    compare (front ++ back) (other ++ follow) =
      (compare front other).then (compare back follow) := by
  induction front generalizing other with
  | nil =>
      obtain rfl := List.eq_nil_of_length_eq_zero same.symm
      rfl
  | cons head front ih =>
      cases other with
      | nil => cases same
      | cons head' other =>
          have shorter : front.length = other.length := Nat.succ.inj same
          rw [List.cons_append, List.cons_append, List.compare_cons_cons, List.compare_cons_cons,
            ih shorter, Ordering.then_assoc]

end Fronts

/-! ## Texts by their bytes -/

/-- Texts compared as the byte sequences of their characters. -/
def charOrder (text other : List Char) : Ordering :=
  compare (text.flatMap String.utf8EncodeChar) (other.flatMap String.utf8EncodeChar)

/-- Texts are ordered by their characters' bytes. -/
theorem byteOrder_ofList (text other : List Char) :
    byteOrder (String.ofList text) (String.ofList other) = charOrder text other := by
  rw [byteOrder, compareOn, asBytes_ofList, asBytes_ofList, charOrder]

instance : Std.TransCmp charOrder :=
  inferInstanceAs (Std.TransCmp (compareOn fun text : List Char =>
    text.flatMap String.utf8EncodeChar))

/-- A text is equal to itself. -/
@[simp] theorem charOrder_self (text : List Char) : charOrder text text = .eq :=
  Std.ReflCmp.compare_self

/-- Only equal texts are. -/
theorem charOrder_eq_iff {text other : List Char} : charOrder text other = .eq ↔ text = other := by
  rw [← byteOrder_ofList, byteOrder_eq_iff, String.ofList_inj]

/-- A text of ASCII characters. -/
def Ascii (text : List Char) : Prop := ∀ char ∈ text, char.toNat < 128

/-- An ASCII text has a byte for each character. -/
theorem Ascii.length_encode {text : List Char} (ascii : Ascii text) :
    (text.flatMap String.utf8EncodeChar).length = text.length := by
  induction text with
  | nil => rfl
  | cons head text ih =>
      rw [List.flatMap_cons, utf8EncodeChar_of_ascii (ascii head List.mem_cons_self),
        List.singleton_append, List.length_cons, List.length_cons,
        ih fun char member => ascii char (List.mem_cons_of_mem head member)]

/-- Texts compare by ASCII fronts of one length, then by what follows. -/
theorem charOrder_append {front other : List Char} (ascii : Ascii front) (ascii' : Ascii other)
    (same : front.length = other.length) (back follow : List Char) :
    charOrder (front ++ back) (other ++ follow) =
      (charOrder front other).then (charOrder back follow) := by
  have lengths : (front.flatMap String.utf8EncodeChar).length =
      (other.flatMap String.utf8EncodeChar).length := by
    rw [ascii.length_encode, ascii'.length_encode, same]
  rw [charOrder, List.flatMap_append, List.flatMap_append, compare_append lengths]
  rfl

/-- An empty text comes first. -/
theorem charOrder_nil_cons (head : Char) (tail : List Char) : charOrder [] (head :: tail) = .lt := by
  obtain ⟨byte, bytes, encoded⟩ :=
    List.exists_cons_of_ne_nil (@String.utf8EncodeChar_ne_nil head)
  rw [charOrder, List.flatMap_cons, encoded]
  rfl

/-- A longer text comes after its start. -/
theorem charOrder_cons_nil (head : Char) (tail : List Char) : charOrder (head :: tail) [] = .gt := by
  obtain ⟨byte, bytes, encoded⟩ :=
    List.exists_cons_of_ne_nil (@String.utf8EncodeChar_ne_nil head)
  rw [charOrder, List.flatMap_cons, encoded]
  rfl

/-- Bytes are ordered as numbers. -/
theorem compare_toNat (byte other : UInt8) : compare byte other = compare byte.toNat other.toNat := by
  change compareOfLessAndEq byte other = compareOfLessAndEq byte.toNat other.toNat
  simp only [compareOfLessAndEq, UInt8.lt_iff_toNat_lt, UInt8.toNat_inj]

/-- Texts that start with ASCII characters compare by their codes first. -/
theorem charOrder_cons {head other : Char} (ascii : head.toNat < 128) (ascii' : other.toNat < 128)
    (tail follow : List Char) :
    charOrder (head :: tail) (other :: follow) =
      (compare head.toNat other.toNat).then (charOrder tail follow) := by
  have code : (UInt8.ofNat head.toNat).toNat = head.toNat := by
    rw [UInt8.toNat_ofNat']
    omega
  have code' : (UInt8.ofNat other.toNat).toNat = other.toNat := by
    rw [UInt8.toNat_ofNat']
    omega
  rw [charOrder, List.flatMap_cons, List.flatMap_cons, utf8EncodeChar_of_ascii ascii,
    utf8EncodeChar_of_ascii ascii', List.singleton_append, List.singleton_append,
    List.compare_cons_cons, compare_toNat, code, code']
  rfl

/-! ## Digits -/

/-- The last digits of a number. -/
def padded : Nat → Nat → List Char
  | 0, _ => []
  | width + 1, number => padded width (number / 10) ++ [(number % 10).digitChar]

/-- A padded number has its width. -/
@[simp] theorem length_padded (width number : Nat) : (padded width number).length = width := by
  induction width generalizing number with
  | zero => rfl
  | succ width ih => rw [padded, List.length_append, ih, List.length_singleton]

/-- The code of a digit. -/
theorem toNat_digitChar {digit : Nat} (small : digit < 10) :
    digit.digitChar.toNat = 48 + digit := by
  interval_cases digit <;> rfl

/-- It holds digits only. -/
theorem toNat_of_mem_padded {width number : Nat} {char : Char} (member : char ∈ padded width number) :
    48 ≤ char.toNat ∧ char.toNat < 58 := by
  induction width generalizing number with
  | zero => cases member
  | succ width ih =>
      rw [padded, List.mem_append, List.mem_singleton] at member
      rcases member with member | rfl
      · exact ih member
      · have small : number % 10 < 10 := Nat.mod_lt _ (by decide)
        rw [toNat_digitChar small]
        omega

/-- So it is ASCII. -/
theorem ascii_padded (width number : Nat) : Ascii (padded width number) := by
  intro char member
  have := toNat_of_mem_padded member
  omega

/-- Numbers that fit the width compare as their digits do. -/
theorem charOrder_padded {width number other : Nat} (fits : number < 10 ^ width)
    (fits' : other < 10 ^ width) :
    charOrder (padded width number) (padded width other) = compare number other := by
  induction width generalizing number other with
  | zero =>
      obtain rfl : number = 0 := by simpa using fits
      obtain rfl : other = 0 := by simpa using fits'
      rfl
  | succ width ih =>
      have front : number / 10 < 10 ^ width := Nat.div_lt_of_lt_mul (by rwa [pow_succ'] at fits)
      have front' : other / 10 < 10 ^ width := Nat.div_lt_of_lt_mul (by rwa [pow_succ'] at fits')
      have last : number % 10 < 10 := Nat.mod_lt _ (by decide)
      have last' : other % 10 < 10 := Nat.mod_lt _ (by decide)
      have code := toNat_digitChar last
      have code' := toNat_digitChar last'
      rw [padded, padded, charOrder_append (ascii_padded _ _) (ascii_padded _ _) (by simp),
        ih front front', charOrder_cons (by omega) (by omega), charOrder_self,
        Ordering.then_eq, toNat_digitChar last, toNat_digitChar last']
      rcases lt_trichotomy number other with less | rfl | greater
      · rw [Nat.compare_eq_lt.mpr less, Ordering.then_eq_lt, Nat.compare_eq_lt, Nat.compare_eq_eq,
          Nat.compare_eq_lt]
        omega
      · simp
      · rw [Nat.compare_eq_gt.mpr greater, Ordering.then_eq_gt, Nat.compare_eq_gt,
          Nat.compare_eq_eq, Nat.compare_eq_gt]
        omega

/-- A number that fits its width can be told from it. -/
theorem padded_inj {width number other : Nat} (fits : number < 10 ^ width)
    (fits' : other < 10 ^ width) (same : padded width number = padded width other) :
    number = other := by
  rw [← charOrder_eq_iff, charOrder_padded fits fits', Nat.compare_eq_eq] at same
  exact same

/-! ## Marks below the digits -/

/-- Digits before a mark that sorts before every digit compare on their own first. -/
theorem charOrder_append_mark {mark : Char} (below : mark.toNat < 48) {text other : List Char}
    (digits : ∀ char ∈ text, 48 ≤ char.toNat ∧ char.toNat < 58)
    (digits' : ∀ char ∈ other, 48 ≤ char.toNat ∧ char.toNat < 58) (back follow : List Char) :
    charOrder (text ++ mark :: back) (other ++ mark :: follow) =
      (charOrder text other).then (charOrder (mark :: back) (mark :: follow)) := by
  induction text generalizing other with
  | nil =>
      cases other with
      | nil => rfl
      | cons head other =>
          have digit := digits' head List.mem_cons_self
          have less : compare mark.toNat head.toNat = .lt := Nat.compare_eq_lt.mpr (by omega)
          rw [List.nil_append, List.cons_append, charOrder_cons (by omega) (by omega), less,
            charOrder_nil_cons, Ordering.lt_then, Ordering.lt_then]
  | cons head text ih =>
      have digit := digits head List.mem_cons_self
      have rest := fun char member => digits char (List.mem_cons_of_mem head member)
      cases other with
      | nil =>
          have greater : compare head.toNat mark.toNat = .gt := Nat.compare_eq_gt.mpr (by omega)
          rw [List.nil_append, List.cons_append, charOrder_cons (by omega) (by omega), greater,
            charOrder_cons_nil, Ordering.gt_then, Ordering.gt_then]
      | cons head' other =>
          have digit' := digits' head' List.mem_cons_self
          have rest' := fun char member => digits' char (List.mem_cons_of_mem head' member)
          rw [List.cons_append, List.cons_append, charOrder_cons (by omega) (by omega),
            charOrder_cons (by omega) (by omega), ih rest rest', Ordering.then_assoc]

end Egregore.Base
