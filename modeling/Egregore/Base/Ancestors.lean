import Mathlib.Data.List.Infix

/-!
# Walks to the root

The prefixes of a list, the longest first. A walk along them that stops at the first answer finds
the answer of the longest prefix that has one. `findSome?_ancestors_eq_some_iff` names that prefix,
and `findSome?_ancestors_eq_none_iff` says when there is none.
-/

namespace Egregore.Base

variable {α β : Type*}

/-- The prefixes of a list, the longest first. -/
def ancestors (segments : List α) : List (List α) := segments.inits.reverse

@[simp] theorem mem_ancestors {segments ancestor : List α} :
    ancestor ∈ ancestors segments ↔ ancestor <+: segments := by
  rw [ancestors, List.mem_reverse, List.mem_inits]

@[simp] theorem ancestors_nil : ancestors ([] : List α) = [[]] := rfl

theorem ancestors_append_singleton (segments : List α) (last : α) :
    ancestors (segments ++ [last]) = (segments ++ [last]) :: ancestors segments := by
  simp [ancestors, List.inits_append]

/-- The first answer of a walk is that of the longest prefix with one. -/
theorem findSome?_ancestors_eq_some_iff {answer : List α → Option β} {segments : List α} {found : β} :
    (ancestors segments).findSome? answer = some found ↔
      ∃ nearest, nearest <+: segments ∧ answer nearest = some found ∧
        ∀ other, other <+: segments → nearest.length < other.length → answer other = none := by
  induction segments using List.reverseRecOn with
  | nil =>
    simp only [ancestors_nil, List.findSome?_singleton, List.prefix_nil]
    constructor
    · intro answers
      refine ⟨[], rfl, answers, ?_⟩
      rintro other rfl longer
      exact absurd longer (lt_irrefl _)
    · rintro ⟨nearest, rfl, answers, -⟩
      exact answers
  | append_singleton segments last ih =>
    rw [ancestors_append_singleton, List.findSome?_cons]
    cases own : answer (segments ++ [last]) with
    | some answered =>
      constructor
      · rintro ⟨⟩
        refine ⟨_, List.prefix_rfl, own, fun other inside longer => ?_⟩
        exact absurd inside.length_le (not_le.mpr longer)
      · rintro ⟨nearest, inside, answers, none⟩
        rcases List.prefix_concat_iff.mp inside with rfl | inside
        · rw [own] at answers
          exact answers
        · have shorter : nearest.length < (segments ++ [last]).length := by
            rw [List.length_append, List.length_singleton]
            exact Nat.lt_succ_of_le inside.length_le
          rw [none _ List.prefix_rfl shorter] at own
          cases own
    | none =>
      simp only [ih]
      constructor
      · rintro ⟨nearest, inside, answers, none⟩
        refine ⟨nearest, inside.trans (List.prefix_append _ _), answers, fun other inside' longer => ?_⟩
        rcases List.prefix_concat_iff.mp inside' with rfl | inside'
        · exact own
        · exact none other inside' longer
      · rintro ⟨nearest, inside, answers, none⟩
        rcases List.prefix_concat_iff.mp inside with rfl | inside
        · rw [own] at answers
          cases answers
        · exact ⟨nearest, inside, answers, fun other inside' longer =>
            none other (inside'.trans (List.prefix_append _ _)) longer⟩

theorem findSome?_ancestors_eq_none_iff {answer : List α → Option β} {segments : List α} :
    (ancestors segments).findSome? answer = none ↔
      ∀ ancestor, ancestor <+: segments → answer ancestor = none := by
  simp only [List.findSome?_eq_none_iff, mem_ancestors]

end Egregore.Base
