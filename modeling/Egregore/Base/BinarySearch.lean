import Mathlib.Data.List.Pairwise
import Mathlib.Order.Basic
import Mathlib.Tactic.Common

/-!
# Binary search through a fallible probe

The half-open `lo`/`hi` loop over positions whose comparison with the target may
fail. When the probe compares an ascending list of keys, the search finds the
target's position if there is one. `binarySearch_sound` needs no order of the keys;
`binarySearch_complete` does.
-/

namespace Egregore.Base

variable {ε : Type*}

/-- Halve `[lo, hi)`, asking `probe` how the key at the middle compares with the
target. Each round shortens the interval, so `hi - lo` rounds are enough. -/
def binarySearch (probe : Nat → Except ε Ordering) : Nat → Nat → Nat → Except ε (Option Nat)
  | 0, _, _ => .ok none
  | fuel + 1, lo, hi =>
      if lo < hi then
        let mid := lo + (hi - lo) / 2
        match probe mid with
        | .error fault => .error fault
        | .ok .eq => .ok (some mid)
        | .ok .lt => binarySearch probe fuel (mid + 1) hi
        | .ok .gt => binarySearch probe fuel lo mid
      else .ok none

section Sorted

variable {κ : Type*} {cmp : κ → κ → Ordering}

/-- The probe compares the keys of a list with the target. -/
def Probes (cmp : κ → κ → Ordering) (probe : Nat → Except ε Ordering) (keys : List κ)
    (target : κ) : Prop :=
  ∀ index key, keys[index]? = some key → probe index = .ok (cmp key target)

variable {probe : Nat → Except ε Ordering} {keys : List κ} {target : κ}

/-- A hit is always a position of the target. -/
theorem binarySearch_sound (probes : Probes cmp probe keys target) (fuel lo hi : Nat)
    (inside : hi ≤ keys.length) {index : Nat}
    (found : binarySearch probe fuel lo hi = .ok (some index)) :
    ∃ key, keys[index]? = some key ∧ cmp key target = .eq := by
  induction fuel generalizing lo hi with
  | zero => simp [binarySearch] at found
  | succ fuel ih =>
      simp only [binarySearch] at found
      split at found
      · next open_ =>
          have middle : lo + (hi - lo) / 2 < keys.length := by omega
          rw [probes _ _ (List.getElem?_eq_getElem middle)] at found
          cases compared : cmp keys[lo + (hi - lo) / 2] target with
          | lt =>
              simp only [compared] at found
              exact ih _ _ inside found
          | eq =>
              simp only [compared, Except.ok.injEq, Option.some.injEq] at found
              subst found
              exact ⟨_, List.getElem?_eq_getElem middle, compared⟩
          | gt =>
              simp only [compared] at found
              exact ih _ _ (by omega) found
      · simp at found

/-- Every probe succeeds, so the search does. -/
theorem binarySearch_isOk (probes : Probes cmp probe keys target) (fuel lo hi : Nat)
    (inside : hi ≤ keys.length) : ∃ result, binarySearch probe fuel lo hi = .ok result := by
  induction fuel generalizing lo hi with
  | zero => exact ⟨none, rfl⟩
  | succ fuel ih =>
      simp only [binarySearch]
      split
      · next open_ =>
          have middle : lo + (hi - lo) / 2 < keys.length := by omega
          rw [probes _ _ (List.getElem?_eq_getElem middle)]
          cases cmp keys[lo + (hi - lo) / 2] target with
          | lt => exact ih _ _ inside
          | eq => exact ⟨_, rfl⟩
          | gt => exact ih _ _ (by omega)
      · exact ⟨none, rfl⟩

/-- A target inside the interval is not missed. -/
theorem binarySearch_complete [Std.TransCmp cmp]
    (ascending : keys.Pairwise fun key later => cmp key later = .lt)
    (probes : Probes cmp probe keys target) (fuel lo hi : Nat) (enough : hi - lo ≤ fuel)
    (inside : hi ≤ keys.length) {index : Nat} {key : κ} (at_index : keys[index]? = some key)
    (hit : cmp key target = .eq) (above : lo ≤ index) (below : index < hi) :
    binarySearch probe fuel lo hi = .ok (some index) := by
  induction fuel generalizing lo hi with
  | zero => omega
  | succ fuel ih =>
      have middle : lo + (hi - lo) / 2 < keys.length := by omega
      have at_middle := List.getElem?_eq_getElem middle
      have ordered : ∀ {i j : Nat} {first second : κ}, keys[i]? = some first →
          keys[j]? = some second → i < j → cmp first second = .lt := by
        intro i j first second at_i at_j less
        obtain ⟨boundI, rfl⟩ := List.getElem?_eq_some_iff.mp at_i
        obtain ⟨boundJ, rfl⟩ := List.getElem?_eq_some_iff.mp at_j
        exact List.pairwise_iff_getElem.mp ascending i j boundI boundJ less
      simp only [binarySearch, if_pos (by omega : lo < hi), probes _ _ at_middle]
      rcases Nat.lt_trichotomy index (lo + (hi - lo) / 2) with less | equal | greater
      · have compared : cmp keys[lo + (hi - lo) / 2] target = .gt := by
          have := ordered at_index at_middle less
          rw [← Std.TransCmp.congr_right hit]
          exact Std.OrientedCmp.gt_of_lt this
        simp only [compared]
        exact ih _ _ (by omega) (by omega) above less
      · subst equal
        obtain rfl := Option.some.inj (at_index.symm.trans at_middle)
        simp only [hit]
      · have compared : cmp keys[lo + (hi - lo) / 2] target = .lt := by
          have := ordered at_middle at_index greater
          rwa [← Std.TransCmp.congr_right hit]
        simp only [compared]
        exact ih _ _ (by omega) inside greater below

end Sorted

end Egregore.Base
