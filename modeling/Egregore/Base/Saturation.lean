import Egregore.Base.OrderedMap

/-!
# Saturation of a removal rule

Rounds that remove every row a rule fires for, until no rule fires. With a round
for each row and one more, the result is closed under the rule, and it is contained
in every set the rule cannot leave.
-/

namespace Egregore.Base

variable {κ : Type*} {cmp : κ → κ → Ordering} [Std.TransCmp cmp] [Std.LawfulEqCmp cmp]

/-- The rows a round removes. -/
def firing (fires : Std.ExtTreeSet κ cmp → κ → Bool) (rows : List κ)
    (removed : Std.ExtTreeSet κ cmp) : List κ :=
  rows.filter fun row => !removed.contains row && fires removed row

/-- Remove rows round by round. -/
def saturate (fires : Std.ExtTreeSet κ cmp → κ → Bool) (rows : List κ) :
    Nat → Std.ExtTreeSet κ cmp → Std.ExtTreeSet κ cmp
  | 0, removed => removed
  | rounds + 1, removed =>
      let newly := firing fires rows removed
      if newly.isEmpty then removed
      else saturate fires rows rounds (newly.foldl (fun removed row => removed.insert row) removed)

/-- Removing one row more leaves fewer. -/
theorem length_filter_lt {α : Type*} (rows : List α) (gone more : α → Bool)
    (grows : ∀ row, gone row = true → more row = true) {row : α} (inside : row ∈ rows)
    (fresh : ¬ gone row = true) (lost : more row = true) :
    (rows.filter fun row => !more row).length < (rows.filter fun row => !gone row).length := by
  have nested : (rows.filter fun row => !more row) =
      (rows.filter fun row => !gone row).filter fun row => !more row := by
    rw [List.filter_filter]
    apply List.filter_congr
    intro other _
    cases left : more other with
    | true => rfl
    | false =>
        cases gone_ : gone other with
        | false => rfl
        | true => simp [grows other gone_] at left
  rw [nested, List.length_filter_lt_length_iff_exists]
  exact ⟨row, List.mem_filter.mpr ⟨inside, by simpa using fresh⟩, by simp [lost]⟩

section

variable {fires : Std.ExtTreeSet κ cmp → κ → Bool} {rows : List κ}

omit [Std.LawfulEqCmp cmp] in
/-- A round removes the rows that are still there and that the rule fires for. -/
theorem mem_firing {removed : Std.ExtTreeSet κ cmp} {row : κ} :
    row ∈ firing fires rows removed ↔ row ∈ rows ∧ row ∉ removed ∧ fires removed row = true := by
  rw [firing, List.mem_filter, Bool.and_eq_true, Bool.not_eq_true', ← Bool.not_eq_true,
    ← Std.ExtTreeSet.mem_iff_contains]

/-- What is removed lies in every set that the rule does not leave. -/
theorem saturate_least {Lost : κ → Prop}
    (closed : ∀ removed : Std.ExtTreeSet κ cmp, (∀ row ∈ removed, Lost row) →
      ∀ row ∈ rows, fires removed row = true → Lost row)
    (rounds : Nat) (removed : Std.ExtTreeSet κ cmp) (start : ∀ row ∈ removed, Lost row) :
    ∀ row ∈ saturate fires rows rounds removed, Lost row := by
  induction rounds generalizing removed with
  | zero => exact start
  | succ rounds ih =>
      simp only [saturate]
      split
      · exact start
      · refine ih _ fun row member => ?_
        rcases (mem_foldl_insert _ _ _).mp member with earlier | new
        · exact start row earlier
        · obtain ⟨inside, -, fired⟩ := mem_firing.mp new
          exact closed removed start row inside fired

/-- A busy round leaves fewer rows. -/
theorem length_remaining_lt (removed : Std.ExtTreeSet κ cmp)
    (busy : ¬ (firing fires rows removed).isEmpty) :
    (rows.filter fun row => !((firing fires rows removed).foldl
      (fun removed row => removed.insert row) removed).contains row).length <
      (rows.filter fun row => !removed.contains row).length := by
  obtain ⟨first, isFirst⟩ : ∃ first, first ∈ firing fires rows removed := by
    apply List.exists_mem_of_ne_nil
    rwa [List.isEmpty_iff] at busy
  have fresh := (mem_firing.mp isFirst).2.1
  rw [Std.ExtTreeSet.mem_iff_contains] at fresh
  refine length_filter_lt rows (fun row => removed.contains row) _ (fun row gone => ?_)
    (mem_firing.mp isFirst).1 fresh
    (Std.ExtTreeSet.mem_iff_contains.mp ((mem_foldl_insert _ _ _).mpr (Or.inr isFirst)))
  exact Std.ExtTreeSet.mem_iff_contains.mp ((mem_foldl_insert _ _ _).mpr
    (Or.inl (Std.ExtTreeSet.mem_iff_contains.mpr gone)))

/-- With a round for each row still there and one more, the result is closed. -/
theorem saturate_closed (rounds : Nat) (removed : Std.ExtTreeSet κ cmp)
    (enough : (rows.filter fun row => !removed.contains row).length < rounds) {row : κ}
    (inside : row ∈ rows) (fired : fires (saturate fires rows rounds removed) row = true) :
    row ∈ saturate fires rows rounds removed := by
  induction rounds generalizing removed with
  | zero => omega
  | succ rounds ih =>
      simp only [saturate] at fired ⊢
      split at fired
      · next quiet =>
          rw [if_pos quiet]
          by_contra still
          have := mem_firing.mpr ⟨inside, still, fired⟩
          rw [List.isEmpty_iff.mp quiet] at this
          simp at this
      · next busy =>
          rw [if_neg busy]
          have shorter := length_remaining_lt removed busy
          exact ih _ (by omega) fired

end

end Egregore.Base
