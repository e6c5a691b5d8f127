import Mathlib.Algebra.GroupWithZero.Nat
import Mathlib.Order.Bounds.Basic
import Mathlib.Order.Monotone.Basic
import Mathlib.Tactic.Common

/-!
# Texts that state their own size

A text that carries its size as a figure has a size that depends on the width of that figure.
Measuring and writing the figure anew settles on the least size that is stated truly. Where the
text carries its limit as well, the limits that it fits are found from the size without figures.
-/

namespace Egregore.Base

/-- Write the size as the figure until it is the figure. -/
def settle (size : Nat → Nat) : Nat → Nat → Nat
  | 0, figure => figure
  | rounds + 1, figure =>
      if size figure = figure then figure else settle size rounds (size figure)

/-- The width of a figure: one more digit at most for a figure that grows by one, or by its own
width. -/
structure FigureWidth (width : Nat → Nat) : Prop where
  zero : width 0 = 1
  mono : Monotone width
  succ : ∀ figure, width (figure + 1) ≤ width figure + 1
  carry : ∀ figure, width (figure + width figure) ≤ width figure + 1

/-! ## Settling -/

section Settle

variable {size : Nat → Nat}

theorem settle_of_fixed {figure : Nat} (fixed : size figure = figure) (rounds : Nat) :
    settle size rounds figure = figure := by
  cases rounds with
  | zero => rfl
  | succ rounds => rw [settle, if_pos fixed]

theorem settle_succ (rounds figure : Nat) :
    settle size (rounds + 1) figure = settle size rounds (size figure) := by
  rw [settle]
  split
  · next fixed =>
      rw [fixed, settle_of_fixed fixed]
  · rfl

/-- A figure from below stays below every size that is not too small. -/
theorem settle_le (mono : Monotone size) {bound : Nat} (bounded : size bound ≤ bound)
    (rounds : Nat) {figure : Nat} (below : figure ≤ bound) :
    settle size rounds figure ≤ bound := by
  induction rounds generalizing figure with
  | zero => exact below
  | succ rounds ih =>
      rw [settle_succ]
      apply ih
      exact (mono below).trans bounded

end Settle

namespace FigureWidth

variable {width : Nat → Nat}

theorem pos (widths : FigureWidth width) (figure : Nat) : 1 ≤ width figure := by
  have least := widths.mono (Nat.zero_le figure)
  rwa [widths.zero] at least

theorem add_le (widths : FigureWidth width) (figure more : Nat) :
    width (figure + more) ≤ width figure + more := by
  induction more with
  | zero => exact Nat.le_refl _
  | succ more ih =>
      have step := widths.succ (figure + more)
      rw [Nat.add_assoc] at step
      omega

/-- The third size is stated truly: the figure gains a digit at most once. -/
theorem third_fixed (widths : FigureWidth width) (blank : Nat) {first second third : Nat}
    (isFirst : first = blank + width 0) (isSecond : second = blank + width first)
    (isThird : third = blank + width second) : blank + width third = third := by
  have zero := widths.zero
  have ascends : width first ≤ width second := by
    have positive := widths.pos first
    apply widths.mono
    omega
  have carries := widths.carry first
  have grows : width second ≤ width (first + width first) := by
    apply widths.mono
    omega
  by_cases same : width second = width first
  · have repeated : third = second := by omega
    rw [repeated, same]
    omega
  · have last : third = first + width first := by omega
    have kept : width second ≤ width third := by
      apply widths.mono
      omega
    rw [← last] at carries
    omega

/-- The settled size is stated truly. -/
theorem settle_fixed (widths : FigureWidth width) (blank rounds : Nat) :
    blank + width (settle (fun figure => blank + width figure) (rounds + 3) 0) =
      settle (fun figure => blank + width figure) (rounds + 3) 0 := by
  rw [settle_succ, settle_succ, settle_succ]
  have fixed := widths.third_fixed blank rfl rfl rfl
  rw [settle_of_fixed fixed]
  exact fixed

/-- The settled size is the least that is not too small. -/
theorem settle_le (widths : FigureWidth width) (blank rounds : Nat) {bound : Nat}
    (bounded : blank + width bound ≤ bound) :
    settle (fun figure => blank + width figure) rounds 0 ≤ bound := by
  apply Base.settle_le (fun _ _ le => Nat.add_le_add_left (widths.mono le) blank) bounded
  exact Nat.zero_le bound

/-! ## Limits -/

/-- A text fits its limit exactly when the limit has room for itself as the figure. -/
theorem fits_iff (widths : FigureWidth width) {blank limit : Nat} :
    (∃ figure, blank + width figure = figure ∧ figure ≤ limit) ↔ blank + width limit ≤ limit := by
  constructor
  · rintro ⟨figure, fixed, below⟩
    have grows := widths.add_le figure (limit - figure)
    rw [Nat.add_sub_cancel' below] at grows
    omega
  · intro room
    exact ⟨_, widths.settle_fixed blank 0, widths.settle_le blank 3 room⟩

/-- The least limit with room for two figures is filled by itself as both. -/
theorem least_eq (widths : FigureWidth width) {blank least : Nat}
    (isLeast : IsLeast {limit | blank + 2 * width limit ≤ limit} least) :
    least = blank + 2 * width least := by
  have room : blank + 2 * width least ≤ least := isLeast.1
  have positive := widths.pos least
  have before : ¬ blank + 2 * width (least - 1) ≤ least - 1 := fun fits => by
    have bound : least ≤ least - 1 := isLeast.2 fits
    omega
  have below := widths.mono (Nat.sub_le least 1)
  omega

/-- The settled size of a text with another limit is the least limit of a text without figures
exactly when the one is longer than the other by as much as its limit is narrower. -/
theorem isLeast_settle_iff (widths : FigureWidth width) {blank other limit : Nat} (rounds : Nat) :
    IsLeast {limit | blank + 2 * width limit ≤ limit}
        (settle (fun figure => other + width limit + width figure) (rounds + 3) 0) ↔
      ∃ least, IsLeast {limit | blank + 2 * width limit ≤ limit} least ∧
        other + width limit = blank + width least := by
  have fixed := widths.settle_fixed (other + width limit) rounds
  have below : ∀ bound, other + width limit + width bound ≤ bound →
      settle (fun figure => other + width limit + width figure) (rounds + 3) 0 ≤ bound :=
    fun bound room => widths.settle_le _ _ room
  generalize settle (fun figure => other + width limit + width figure) (rounds + 3) 0 = settled
    at fixed below ⊢
  constructor
  · intro isLeast
    refine ⟨settled, isLeast, ?_⟩
    have filled := widths.least_eq isLeast
    omega
  · rintro ⟨least, isLeast, balance⟩
    have filled := widths.least_eq isLeast
    have above := below least (by omega)
    have narrower := widths.mono above
    have room : blank + 2 * width settled ≤ settled := by omega
    have same : settled = least := Nat.le_antisymm above (isLeast.2 room)
    rwa [same]

end FigureWidth

/-! ## Widths -/

/-- How many digits a number has. -/
def decimalWidth (number : Nat) : Nat := (Nat.toDigits 10 number).length

theorem decimalWidth_le_iff {number digits : Nat} (some : 0 < digits) :
    decimalWidth number ≤ digits ↔ number < 10 ^ digits :=
  Nat.length_toDigits_le_iff (by decide) some

theorem decimalWidth_pos (number : Nat) : 0 < decimalWidth number := Nat.length_toDigits_pos

theorem lt_pow_decimalWidth (number : Nat) : number < 10 ^ decimalWidth number :=
  (decimalWidth_le_iff (decimalWidth_pos number)).mp (Nat.le_refl _)

theorem figureWidth_decimal : FigureWidth decimalWidth where
  zero := rfl
  mono := by
    intro number other below
    rw [decimalWidth_le_iff (decimalWidth_pos other)]
    exact below.trans_lt (lt_pow_decimalWidth other)
  succ := by
    intro number
    have small := lt_pow_decimalWidth number
    rw [decimalWidth_le_iff (Nat.succ_pos _), Nat.pow_succ]
    omega
  carry := by
    intro number
    have small := lt_pow_decimalWidth number
    have width := Nat.lt_pow_self (n := decimalWidth number) (show 1 < 10 by decide)
    rw [decimalWidth_le_iff (Nat.succ_pos _), Nat.pow_succ]
    omega

/-- Where every figure counts as one. -/
theorem figureWidth_one : FigureWidth fun _ => 1 where
  zero := rfl
  mono := monotone_const
  succ := fun _ => Nat.le_succ 1
  carry := fun _ => Nat.le_succ 1

end Egregore.Base
