import Mathlib.Data.List.Perm.Basic
import Mathlib.Data.List.Induction
import Mathlib.Order.Basic
import Mathlib.Tactic.Common

/-!
# Keeping the best candidate

A fold that keeps the greatest element seen so far under a lawful comparison. The
element it ends with does not depend on the order of the list. `bestOf_eq_some_iff`
describes it, and `bestOf_perm` lets a map of champions be filled in any order.
-/

namespace Egregore.Base

variable {α : Type*}

/-- Replace the current candidate by a strictly greater one. -/
def keepBest (cmp : α → α → Ordering) (current : Option α) (candidate : α) : Option α :=
  match current with
  | none => some candidate
  | some best => if cmp best candidate = .lt then some candidate else some best

/-- The greatest element of a list. -/
def bestOf (cmp : α → α → Ordering) (candidates : List α) : Option α :=
  candidates.foldl (keepBest cmp) none

/-- `best` is an element that no element exceeds. -/
structure IsBest (cmp : α → α → Ordering) (candidates : List α) (best : α) : Prop where
  mem : best ∈ candidates
  upper : ∀ candidate ∈ candidates, cmp best candidate ≠ .lt

variable {cmp : α → α → Ordering}

@[simp] theorem bestOf_nil : bestOf cmp [] = none := rfl

theorem bestOf_append_singleton (candidates : List α) (last : α) :
    bestOf cmp (candidates ++ [last]) = keepBest cmp (bestOf cmp candidates) last := by
  simp [bestOf]

theorem keepBest_ne_none (current : Option α) (candidate : α) :
    keepBest cmp current candidate ≠ none := by
  cases current with
  | none => simp [keepBest]
  | some best =>
      simp only [keepBest]
      split <;> simp

@[simp] theorem bestOf_eq_none_iff {candidates : List α} :
    bestOf cmp candidates = none ↔ candidates = [] := by
  induction candidates using List.reverseRecOn with
  | nil => simp
  | append_singleton candidates last _ =>
      rw [bestOf_append_singleton]
      simp [keepBest_ne_none]

variable [Std.TransCmp cmp]

/-- The fold ends with a best element. -/
theorem isBest_of_bestOf {candidates : List α} {best : α}
    (found : bestOf cmp candidates = some best) : IsBest cmp candidates best := by
  induction candidates using List.reverseRecOn generalizing best with
  | nil => simp at found
  | append_singleton candidates last ih =>
      rw [bestOf_append_singleton] at found
      cases earlier : bestOf cmp candidates with
      | none =>
          rw [bestOf_eq_none_iff] at earlier
          subst earlier
          obtain rfl : last = best := by simpa [keepBest] using found
          have self : cmp last last = .eq := Std.ReflCmp.compare_self
          exact ⟨by simp, by simp [self]⟩
      | some kept =>
          have before := ih earlier
          simp only [earlier, keepBest] at found
          split at found
          · next less =>
              obtain rfl := Option.some.inj found
              refine ⟨by simp, fun candidate member => ?_⟩
              rcases List.mem_append.mp member with inside | isLast
              · intro exceeds
                exact before.upper candidate inside (Std.TransCmp.lt_trans less exceeds)
              · have self : cmp last last = .eq := Std.ReflCmp.compare_self
                simp [List.mem_singleton.mp isLast, self]
          · next notLess =>
              obtain rfl := Option.some.inj found
              refine ⟨List.mem_append_left _ before.mem, fun candidate member => ?_⟩
              rcases List.mem_append.mp member with inside | isLast
              · exact before.upper candidate inside
              · rwa [List.mem_singleton.mp isLast]

/-- The fold ends with the first of the greatest elements. -/
theorem bestOf_eq_some_iff_first {candidates : List α} {best : α} :
    bestOf cmp candidates = some best ↔
      ∃ earlier later, candidates = earlier ++ best :: later ∧
        (∀ other ∈ earlier, cmp other best = .lt) ∧ ∀ other ∈ later, cmp best other ≠ .lt := by
  induction candidates using List.reverseRecOn generalizing best with
  | nil => simp
  | append_singleton candidates last ih =>
      rw [bestOf_append_singleton]
      constructor
      · intro found
        cases before : bestOf cmp candidates with
        | none =>
            rw [bestOf_eq_none_iff] at before
            subst before
            obtain rfl : last = best := by simpa [keepBest] using found
            exact ⟨[], [], by simp⟩
        | some kept =>
            obtain ⟨earlier, later, split, smaller, notGreater⟩ := ih.mp before
            simp only [before, keepBest] at found
            split at found
            · next less =>
                obtain rfl := Option.some.inj found
                refine ⟨candidates, [], rfl, fun other member => ?_, by simp⟩
                rw [split] at member
                rcases List.mem_append.mp member with inside | inside
                · exact Std.TransCmp.lt_trans (smaller other inside) less
                · rcases List.mem_cons.mp inside with rfl | inside
                  · exact less
                  · exact Std.TransCmp.lt_of_isLE_of_lt
                      (Std.OrientedCmp.isGE_iff_isLE.mp
                        (Ordering.isGE_iff_ne_lt.mpr (notGreater other inside))) less
            · next notLess =>
                obtain rfl := Option.some.inj found
                refine ⟨earlier, later ++ [last], by simp [split], smaller, fun other member => ?_⟩
                rcases List.mem_append.mp member with inside | isLast
                · exact notGreater other inside
                · rwa [List.mem_singleton.mp isLast]
      · rintro ⟨earlier, later, split, smaller, notGreater⟩
        rcases List.eq_nil_or_concat later with rfl | ⟨later, final, rfl⟩
        · obtain ⟨rfl, same⟩ := List.append_inj' split rfl
          obtain rfl : last = best := by simpa using same
          cases before : bestOf cmp candidates with
          | none => rfl
          | some kept =>
              have less := smaller kept (isBest_of_bestOf before).mem
              simp [keepBest, less]
        · have shape : candidates ++ [last] = (earlier ++ best :: later) ++ [final] := by
            rw [split]
            simp
          obtain ⟨rfl, same⟩ := List.append_inj' shape rfl
          obtain rfl : last = final := by simpa using same
          have kept : bestOf cmp (earlier ++ best :: later) = some best :=
            ih.mpr ⟨earlier, later, rfl, smaller, fun other member =>
              notGreater other (by simp [member])⟩
          have notLess := notGreater last (by simp)
          simp [kept, keepBest, notLess]

/-- A candidate that exceeds all earlier ones is the best. -/
theorem bestOf_concat_of_exceeds {candidates : List α} {last : α}
    (exceeds : ∀ candidate ∈ candidates, cmp candidate last = .lt) :
    bestOf cmp (candidates ++ [last]) = some last := by
  rw [bestOf_append_singleton]
  cases found : bestOf cmp candidates with
  | none => rfl
  | some best => simp [keepBest, exceeds best (isBest_of_bestOf found).mem]

/-- A candidate that does not exceed some earlier one changes nothing. -/
theorem bestOf_concat_of_not_exceeds {candidates : List α} {last candidate : α}
    (member : candidate ∈ candidates) (notLess : cmp candidate last ≠ .lt) :
    bestOf cmp (candidates ++ [last]) = bestOf cmp candidates := by
  rw [bestOf_append_singleton]
  cases found : bestOf cmp candidates with
  | none => simp [bestOf_eq_none_iff.mp found] at member
  | some best =>
      have below := (isBest_of_bestOf found).upper candidate member
      have kept : cmp best last ≠ .lt := fun less => notLess
        (Std.TransCmp.lt_of_isLE_of_lt
          (Std.OrientedCmp.isGE_iff_isLE.mp (Ordering.isGE_iff_ne_lt.mpr below)) less)
      simp [keepBest, kept]

/-- A best element is the only one. -/
theorem IsBest.unique [Std.LawfulEqCmp cmp] {candidates : List α} {best other : α}
    (isBest : IsBest cmp candidates best) (isBest' : IsBest cmp candidates other) :
    best = other := by
  have below := isBest.upper other isBest'.mem
  have above := isBest'.upper best isBest.mem
  cases compared : cmp best other with
  | lt => exact absurd compared below
  | eq => exact Std.LawfulEqCmp.compare_eq_iff_eq.mp compared
  | gt => exact absurd (Std.OrientedCmp.gt_iff_lt.mp compared) above

theorem bestOf_eq_some_iff [Std.LawfulEqCmp cmp] {candidates : List α} {best : α} :
    bestOf cmp candidates = some best ↔ IsBest cmp candidates best := by
  refine ⟨isBest_of_bestOf, fun isBest => ?_⟩
  cases found : bestOf cmp candidates with
  | none =>
      rw [bestOf_eq_none_iff] at found
      simpa [found] using isBest.mem
  | some other => rw [(isBest_of_bestOf found).unique isBest]

/-- Only which candidates there are matters. -/
theorem bestOf_congr [Std.LawfulEqCmp cmp] {candidates others : List α}
    (same : ∀ candidate, candidate ∈ candidates ↔ candidate ∈ others) :
    bestOf cmp candidates = bestOf cmp others := by
  ext best
  rw [bestOf_eq_some_iff, bestOf_eq_some_iff]
  constructor
  · rintro ⟨mem, upper⟩
    exact ⟨(same best).mp mem, fun candidate member => upper candidate ((same _).mpr member)⟩
  · rintro ⟨mem, upper⟩
    exact ⟨(same best).mpr mem, fun candidate member => upper candidate ((same _).mp member)⟩

/-- The order of the candidates does not matter. -/
theorem bestOf_perm [Std.LawfulEqCmp cmp] {candidates others : List α}
    (same : candidates.Perm others) : bestOf cmp candidates = bestOf cmp others :=
  bestOf_congr fun _ => same.mem_iff

theorem bestOf_compare_eq_some_iff {candidates : List Nat} {best : Nat} :
    bestOf compare candidates = some best ↔
      best ∈ candidates ∧ ∀ candidate ∈ candidates, candidate ≤ best := by
  rw [bestOf_eq_some_iff]
  constructor
  · rintro ⟨mem, upper⟩
    exact ⟨mem, fun candidate member => by simpa [Nat.compare_eq_lt] using upper candidate member⟩
  · rintro ⟨mem, upper⟩
    exact ⟨mem, fun candidate member => by simpa [Nat.compare_eq_lt] using upper candidate member⟩

end Egregore.Base
