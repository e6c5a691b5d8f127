import Mathlib.Data.List.Sort
import Mathlib.Tactic.Common

/-!
# Sorting by an unchecked comparison

A library sort accepts any comparison. If the comparison is consistent on the items, it sorts them
and keeps the order of draws. Otherwise it may panic, and if it does not, it leaves the items in some
arrangement.
-/

namespace Egregore.Base

variable {α : Type}

/-- A comparison that is a linear preorder on the items. -/
structure Consistent (compared : α → α → Ordering) (items : List α) : Prop where
  antisymmetric : ∀ first ∈ items, ∀ second ∈ items,
    compared second first = (compared first second).swap
  transitive : ∀ first ∈ items, ∀ second ∈ items, ∀ third ∈ items,
    compared first second ≠ .gt → compared second third ≠ .gt → compared first third ≠ .gt

/-- `slice::sort_by`, where a panic has no result. -/
structure SliceSort where
  run {α : Type} (compared : α → α → Ordering) (items : List α) : Option (List α)
  perm {α : Type} {compared : α → α → Ordering} {items arranged : List α} :
    run compared items = some arranged → arranged.Perm items
  sorted {α : Type} {compared : α → α → Ordering} {items : List α} : Consistent compared items →
    ∃ arranged, run compared items = some arranged ∧
      arranged.Pairwise fun item later => compared item later ≠ .gt
  stable {α : Type} {compared : α → α → Ordering} {items arranged : List α} :
    Consistent compared items → run compared items = some arranged →
      ∀ first second, compared first second = .eq → [first, second].Sublist items →
        [first, second].Sublist arranged

variable {compared : α → α → Ordering} {items other : List α}

/-- A comparison that is consistent on some items is so on fewer. -/
theorem Consistent.of_subset (consistent : Consistent compared items)
    (inside : ∀ item ∈ other, item ∈ items) : Consistent compared other where
  antisymmetric := fun first inFirst second inSecond =>
    consistent.antisymmetric first (inside first inFirst) second (inside second inSecond)
  transitive := fun first inFirst second inSecond third inThird =>
    consistent.transitive first (inside first inFirst) second (inside second inSecond)
      third (inside third inThird)

/-- A consistent comparison without draws sorts every arrangement to the same list. -/
theorem SliceSort.run_eq_of_perm (sort : SliceSort) (consistent : Consistent compared items)
    (noDraws : ∀ first ∈ items, ∀ second ∈ items, compared first second = .eq → first = second)
    (same : items.Perm other) :
    ∃ arranged, sort.run compared items = some arranged ∧
      sort.run compared other = some arranged := by
  obtain ⟨arranged, found, inOrder⟩ := sort.sorted consistent
  obtain ⟨arranged', found', inOrder'⟩ :=
    sort.sorted (consistent.of_subset fun item member => same.mem_iff.mpr member)
  have within {item : α} (member : item ∈ arranged) : item ∈ items :=
    (sort.perm found).mem_iff.mp member
  have within' {item : α} (member : item ∈ arranged') : item ∈ items :=
    same.mem_iff.mpr ((sort.perm found').mem_iff.mp member)
  have equal : arranged = arranged' := by
    apply List.Perm.eq_of_pairwise _ inOrder inOrder'
    · exact (sort.perm found).trans (same.trans (sort.perm found').symm)
    · intro first second inFirst inSecond le ge
      apply noDraws first (within inFirst) second (within' inSecond)
      rw [consistent.antisymmetric first (within inFirst) second (within' inSecond)] at ge
      cases order : compared first second with
      | eq => rfl
      | lt => simp [order] at ge
      | gt => exact absurd order le
  exact ⟨arranged, found, equal ▸ found'⟩

/-- A lexicographic comparison goes by its first part, and by the rest where that draws. -/
theorem then_ne_gt_iff {first second : Ordering} :
    first.then second ≠ .gt ↔ first = .lt ∨ first = .eq ∧ second ≠ .gt := by
  cases first <;> simp [Ordering.then]

/-- Lexicographic orders are transitive. -/
theorem lex_trans {α : Type*} (less : α → α → Prop) [IsTrans α less] {first second third : α}
    {rest rest' rest'' : Prop} (trans : first = second → second = third → rest → rest' → rest'')
    (le : less first second ∨ first = second ∧ rest)
    (le' : less second third ∨ second = third ∧ rest') :
    less first third ∨ first = third ∧ rest'' := by
  rcases le with less₁ | ⟨same, rest⟩
  · rcases le' with less₂ | ⟨rfl, -⟩
    · exact Or.inl (IsTrans.trans _ _ _ less₁ less₂)
    · exact Or.inl less₁
  · subst same
    rcases le' with less₂ | ⟨same, rest'⟩
    · exact Or.inl less₂
    · exact Or.inr ⟨same, trans rfl same rest rest'⟩

/-- An insertion by a consistent comparison keeps a list in order. -/
theorem pairwise_orderedInsert {item : α} (consistent : Consistent compared (item :: items))
    (sorted : items.Pairwise fun item later => compared item later ≠ .gt) :
    (items.orderedInsert (fun item later => compared item later ≠ .gt) item).Pairwise
      fun item later => compared item later ≠ .gt := by
  induction items with
  | nil => simp
  | cons head rest ih =>
    have inHead : head ∈ item :: head :: rest := by simp
    obtain ⟨before, sortedRest⟩ := List.pairwise_cons.mp sorted
    rw [List.orderedInsert]
    split
    · next le =>
      refine List.pairwise_cons.mpr ⟨fun later member => ?_, sorted⟩
      rcases List.mem_cons.mp member with rfl | member
      · exact le
      · exact consistent.transitive item (by simp) head inHead later (by simp [member]) le
          (before later member)
    · next greater =>
      refine List.pairwise_cons.mpr ⟨fun later member => ?_, ih ?_ sortedRest⟩
      · rw [List.mem_orderedInsert] at member
        rcases member with rfl | member
        · rw [consistent.antisymmetric later (by simp) head inHead, not_not.mp greater]
          decide
        · exact before later member
      · exact consistent.of_subset fun item member => by
          rcases List.mem_cons.mp member with rfl | member <;> simp [*]

/-- Insertion by a consistent comparison sorts. -/
theorem pairwise_insertionSort (consistent : Consistent compared items) :
    (items.insertionSort fun item later => compared item later ≠ .gt).Pairwise
      fun item later => compared item later ≠ .gt := by
  induction items with
  | nil => simp
  | cons item rest ih =>
    have inRest : Consistent compared rest :=
      consistent.of_subset fun item member => List.mem_cons_of_mem _ member
    apply pairwise_orderedInsert _ (ih inRest)
    apply consistent.of_subset
    intro other member
    rcases List.mem_cons.mp member with rfl | member
    · simp
    · exact List.mem_cons_of_mem _ ((List.perm_insertionSort _ rest).mem_iff.mp member)

/-- Insertion sort is such a sort, and never panics. -/
def SliceSort.insertion : SliceSort where
  run compared items := some (items.insertionSort fun item later => compared item later ≠ .gt)
  perm found := by
    obtain rfl := Option.some.inj found
    exact List.perm_insertionSort _ _
  sorted consistent := ⟨_, rfl, pairwise_insertionSort consistent⟩
  stable _ found first second draw sub := by
    obtain rfl := Option.some.inj found
    exact List.pair_sublist_insertionSort (by simp [draw]) sub

open Classical in
/-- So is the sort that panics wherever the comparison is inconsistent. -/
noncomputable def SliceSort.strict : SliceSort where
  run compared items :=
    if Consistent compared items then
      some (items.insertionSort fun item later => compared item later ≠ .gt)
    else none
  perm found := by
    obtain ⟨-, same⟩ := Option.ite_none_right_eq_some.mp found
    obtain rfl := Option.some.inj same
    exact List.perm_insertionSort _ _
  sorted consistent := ⟨_, if_pos consistent, pairwise_insertionSort consistent⟩
  stable _ found first second draw sub := by
    obtain ⟨-, same⟩ := Option.ite_none_right_eq_some.mp found
    obtain rfl := Option.some.inj same
    exact List.pair_sublist_insertionSort (by simp [draw]) sub

/-- The strict sort returns on consistent comparisons only. -/
theorem SliceSort.consistent_of_strict {arranged : List α}
    (found : SliceSort.strict.run compared items = some arranged) : Consistent compared items :=
  (Option.ite_none_right_eq_some.mp found).1

end Egregore.Base
