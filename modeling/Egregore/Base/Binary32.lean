import Mathlib.Algebra.GroupWithZero.Nat
import Mathlib.Data.Int.Order.Basic
import Mathlib.Order.Compare
import Mathlib.Tactic.Common

/-!
# Comparisons of binary32 numbers

A floating-point number is its bit pattern: a sign and a magnitude, where the magnitudes above that
of infinity are those of the NaNs.
-/

namespace Egregore.Base

/-- `f32`. -/
structure F32 where
  bits : BitVec 32
  deriving DecidableEq, Repr

namespace F32

def magnitude (number : F32) : Nat := number.bits.toNat % 2 ^ 31

def isNegative (number : F32) : Bool := number.bits.msb

def isNan (number : F32) : Bool := 0x7f800000 < number.magnitude

/-- `f32::NEG_INFINITY`. -/
def negInfinity : F32 := ⟨0xff800000⟩

/-- The place of a number in `total_cmp`: a negative zero is below the zero. -/
def totalRank (number : F32) : Int :=
  if number.isNegative then -1 - number.magnitude else number.magnitude

/-- `f32::total_cmp`. -/
def totalCmp (left right : F32) : Ordering := cmp left.totalRank right.totalRank

/-- The value of a number that is not a NaN, up to an order isomorphism: the zeros are equal. -/
def rank (number : F32) : Int :=
  if number.isNegative then -number.magnitude else number.magnitude

/-- `left >= right`. -/
def ge (left right : F32) : Bool :=
  !left.isNan && !right.isNan && decide (right.rank ≤ left.rank)

theorem ge_trans {left middle right : F32} (first : left.ge middle = true)
    (second : middle.ge right = true) : left.ge right = true := by
  simp only [ge, Bool.and_eq_true, decide_eq_true_eq] at first second ⊢
  exact ⟨⟨first.1.1, second.1.2⟩, Int.le_trans second.2 first.2⟩

end F32

end Egregore.Base
