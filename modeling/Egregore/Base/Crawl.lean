import Mathlib.Data.List.Basic
import Mathlib.Tactic.Common

/-!
# Walking numbered pages

A loop that visits pages in order for as long as the last visit asks for the next one. On fuel,
since it is the visited side that decides when to stop. `walkPages_eq` says how far it gets: to the
first page that asks for no more, if the fuel lasts.
-/

namespace Egregore.Base

variable {σ ε : Type*}

/-- Visit pages from `page` on; `none` where the fuel runs out first. -/
def walkPages (visit : Nat → σ → Except ε (σ × Bool)) : Nat → Nat → σ → Option (Except ε σ)
  | 0, _, _ => none
  | fuel + 1, page, state =>
      match visit page state with
      | .error fault => some (.error fault)
      | .ok (next, true) => walkPages visit fuel (page + 1) next
      | .ok (next, false) => some (.ok next)

/-- Visits that do not fail, and continue up to a last page, see every page up to it. -/
theorem walkPages_eq {visit : Nat → σ → Except ε (σ × Bool)} {effect : Nat → σ → σ}
    {continues : Nat → Bool} {start last : Nat} (ordered : start ≤ last)
    (visits : ∀ page, start ≤ page → page ≤ last → ∀ state,
      visit page state = .ok (effect page state, continues page))
    (onward : ∀ page, start ≤ page → page < last → continues page = true)
    (stops : continues last = false) (fuel : Nat) (state : σ) :
    walkPages visit fuel start state =
      if last < start + fuel then
        some (.ok ((List.range' start (last + 1 - start)).foldl
          (fun state page => effect page state) state))
      else none := by
  induction fuel generalizing start state with
  | zero =>
      have short : ¬ last < start + 0 := by omega
      rw [walkPages, if_neg short]
  | succ fuel ih =>
      rw [walkPages, visits start (Nat.le_refl _) ordered]
      have split : last + 1 - start = (last - start) + 1 := by omega
      rw [split, List.range'_succ, List.foldl_cons]
      rcases Nat.lt_or_eq_of_le ordered with before | rfl
      · rw [onward start (Nat.le_refl _) before]
        dsimp only
        rw [ih before (fun page low high => visits page (by omega) high)
          fun page low high => onward page (by omega) high]
        have rest : last + 1 - (start + 1) = last - start := by omega
        have enough : last < start + 1 + fuel ↔ last < start + (fuel + 1) := by omega
        simp only [rest, enough]
      · simp [stops]

end Egregore.Base
