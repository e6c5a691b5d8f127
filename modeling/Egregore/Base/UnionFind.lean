import Mathlib.Data.Fin.Basic
import Mathlib.Logic.Function.Basic
import Mathlib.Logic.Relation
import Mathlib.Order.Fin.Basic
import Mathlib.Order.MinMax

/-!
# Union-find with smallest roots

A forest over positions in which a parent is never larger than its child. `find` compresses the
chain it climbs and `union` links the larger root under the smaller. Outside of this module a
forest is known by its roots: a `find` keeps them, and a `union` joins two classes.
-/

namespace Egregore.Base

/-- A forest over `size` positions. -/
structure UnionFind (size : Nat) where
  parent : Fin size → Fin size
  parent_le : ∀ index, parent index ≤ index

namespace UnionFind

variable {size : Nat}

/-- Every position is its own root. -/
def new (size : Nat) : UnionFind size where
  parent := id
  parent_le := fun _ => le_rfl

/-- Gives a position another parent. -/
def redirect (forest : UnionFind size) (index target : Fin size) (le : target ≤ index) :
    UnionFind size where
  parent := Function.update forest.parent index target
  parent_le := by
    intro other
    by_cases same : other = index
    · subst same
      simpa using le
    · simpa [same] using forest.parent_le other

/-- A parent is a lower index, so climbing ends. -/
theorem parent_lt {forest : UnionFind size} {index : Fin size}
    (climbs : forest.parent index ≠ index) : forest.parent index < index :=
  lt_of_le_of_ne (forest.parent_le index) climbs

/-- The root of a position, and the forest with the chain to it compressed. -/
def find (forest : UnionFind size) (index : Fin size) :
    UnionFind size × { root : Fin size // root ≤ index } :=
  if forest.parent index ≠ index then
    let (compressed, root) := forest.find (forest.parent index)
    have le := root.2.trans (forest.parent_le index)
    (compressed.redirect index root le, ⟨root, le⟩)
  else (forest, ⟨index, le_rfl⟩)
termination_by index
decreasing_by exact parent_lt ‹_›

/-- Links the larger root of two positions under the smaller. -/
def union (forest : UnionFind size) (first second : Fin size) : UnionFind size :=
  let (forest, rootFirst) := forest.find first
  let (forest, rootSecond) := forest.find second
  if rootFirst.1 = rootSecond.1 then forest
  else if larger : rootFirst.1 > rootSecond.1 then
    forest.redirect rootFirst rootSecond larger.le
  else forest.redirect rootSecond rootFirst (not_lt.mp larger)

/-- The end of a position's chain of parents. -/
def root (forest : UnionFind size) (index : Fin size) : Fin size :=
  if forest.parent index ≠ index then forest.root (forest.parent index) else index
termination_by index
decreasing_by exact parent_lt ‹_›

section Roots

variable {forest : UnionFind size} {index other : Fin size}

/-- An index that is its own parent is a root. -/
theorem root_of_parent_eq (top : forest.parent index = index) : forest.root index = index := by
  rw [root, if_neg (not_not.mpr top)]

/-- A parent has the same root. -/
@[simp] theorem root_parent : forest.root (forest.parent index) = forest.root index := by
  by_cases climbs : forest.parent index ≠ index
  · rw [root.eq_def forest index, if_pos climbs]
  · rw [not_not.mp climbs]

/-- A root is its own parent. -/
@[simp] theorem parent_root : forest.parent (forest.root index) = forest.root index := by
  fun_induction root forest index with
  | case1 index climbs ih => exact ih
  | case2 index top => exact not_not.mp top

/-- A root is its own root. -/
@[simp] theorem root_root : forest.root (forest.root index) = forest.root index :=
  root_of_parent_eq parent_root

/-- At first every index is its own root. -/
@[simp] theorem root_new : (new size).root index = index :=
  root_of_parent_eq rfl

/-- Redirecting an index changes its own parent only. -/
theorem parent_redirect {target : Fin size} (le : target ≤ index) :
    (forest.redirect index target le).parent other =
      if other = index then target else forest.parent other :=
  Function.update_apply ..

/-- A position that is pointed at its root leaves every root where it was. -/
theorem root_redirect_self {target : Fin size} (le : target ≤ index)
    (ends : forest.root index = target) :
    (forest.redirect index target le).root other = forest.root other := by
  induction other using WellFoundedLT.induction with
  | ind other ih =>
    by_cases climbs : (forest.redirect index target le).parent other = other
    · rw [root_of_parent_eq climbs]
      rw [parent_redirect] at climbs
      split at climbs
      · next same =>
        subst same climbs
        exact ends.symm
      · exact (root_of_parent_eq climbs).symm
    · rw [← root_parent, ih _ (parent_lt climbs), parent_redirect]
      split
      · next same =>
        subst same
        rw [← ends, root_root]
      · exact root_parent

/-- Linking one root under another joins their classes. -/
theorem root_redirect_root {target : Fin size} (le : target ≤ index)
    (above : forest.parent index = index) (top : forest.parent target = target) :
    (forest.redirect index target le).root other =
      if forest.root other = index ∨ forest.root other = target then target
      else forest.root other := by
  have ends : (forest.redirect index target le).root target = target := by
    apply root_of_parent_eq
    rw [parent_redirect, top, ite_id]
  induction other using WellFoundedLT.induction with
  | ind other ih =>
    by_cases same : other = index
    · subst same
      rw [root_of_parent_eq above, if_pos (Or.inl rfl), ← root_parent, parent_redirect, if_pos rfl,
        ends]
    · have kept : (forest.redirect index target le).parent other = forest.parent other := by
        rw [parent_redirect, if_neg same]
      by_cases climbs : forest.parent other = other
      · rw [root_of_parent_eq (kept.trans climbs), root_of_parent_eq climbs]
        by_cases met : other = target
        · rw [if_pos (Or.inr met), met]
        · rw [if_neg (not_or.mpr ⟨same, met⟩)]
      · rw [← root_parent, kept, ih _ (parent_lt climbs), root_parent]

/-- `find` returns the root and keeps every root. -/
theorem find_spec :
    (forest.find index).2.1 = forest.root index ∧
      ∀ other, (forest.find index).1.root other = forest.root other := by
  fun_induction find forest index with
  | case1 index climbs compressed root found le ih =>
    rw [found] at ih
    obtain ⟨returned, kept⟩ := ih
    rw [root_parent] at returned
    refine ⟨returned, fun other => ?_⟩
    rw [root_redirect_self, kept]
    rw [kept, returned]
  | case2 index top =>
    exact ⟨(root_of_parent_eq (not_not.mp top)).symm, fun _ => rfl⟩

/-- Finding returns the root. -/
@[simp] theorem find_root : (forest.find index).2.1 = forest.root index :=
  find_spec.1

/-- Compressing a path keeps the roots. -/
@[simp] theorem root_find : (forest.find index).1.root other = forest.root other :=
  find_spec.2 other

/-- `union` gives the classes of its arguments the smaller of their roots. -/
theorem root_union {first second : Fin size} :
    (forest.union first second).root other =
      if forest.root other = forest.root first ∨ forest.root other = forest.root second then
        min (forest.root first) (forest.root second)
      else forest.root other := by
  -- Both searches keep the roots, so their results still are roots of the second forest.
  have same (index : Fin size) :
      ((forest.find first).1.find second).1.root index = forest.root index := by
    rw [root_find, root_find]
  have top (index : Fin size) : ((forest.find first).1.find second).1.parent (forest.root index) =
      forest.root index := by
    rw [← same, parent_root]
  simp only [union, find_root, root_find]
  split
  · next joined =>
    rw [same]
    simp only [← joined, min_self, or_self]
    split
    · next linked => exact linked
    · rfl
  · next apart =>
    split
    · next larger =>
      rw [root_redirect_root _ (top first) (top second), min_eq_right larger.le, same]
    · next smaller =>
      rw [root_redirect_root _ (top second) (top first), min_eq_left (not_lt.mp smaller), same]
      simp only [or_comm]

/-- Two positions share a root after a `union` if they did before or it joins their classes. -/
theorem root_union_eq_iff {first second left right : Fin size} :
    (forest.union first second).root left = (forest.union first second).root right ↔
      forest.root left = forest.root right ∨
        (forest.root left = forest.root first ∧ forest.root right = forest.root second) ∨
        (forest.root left = forest.root second ∧ forest.root right = forest.root first) := by
  rw [root_union, root_union]
  rcases min_choice (forest.root first) (forest.root second) with least | least <;> rw [least] <;>
    split <;> split <;> grind

end Roots

section Classes

open Relation

/-- The classes of a forest are those that the links generate. -/
def Represents (forest : UnionFind size) (links : Fin size → Fin size → Prop) : Prop :=
  ∀ left right, forest.root left = forest.root right ↔ EqvGen links left right

/-- A new forest joins nothing. -/
theorem represents_new : (new size).Represents fun _ _ => False := by
  intro left right
  rw [root_new, root_new]
  constructor
  · rintro rfl
    exact .refl left
  · intro generated
    induction generated with
    | rel _ _ none => exact none.elim
    | refl _ => rfl
    | symm _ _ _ ih => exact ih.symm
    | trans _ _ _ _ _ ih ih' => exact ih.trans ih'

variable {forest : UnionFind size} {links : Fin size → Fin size → Prop}

/-- A `union` adds its link. -/
theorem Represents.union (represents : forest.Represents links) (first second : Fin size) :
    (forest.union first second).Represents fun left right =>
      links left right ∨ left = first ∧ right = second := by
  intro left right
  have wider : EqvGen links ≤ EqvGen fun left right =>
      links left right ∨ left = first ∧ right = second :=
    EqvGen.mono fun _ _ => Or.inl
  have joined : EqvGen (fun left right => links left right ∨ left = first ∧ right = second)
      first second :=
    .rel _ _ (Or.inr ⟨rfl, rfl⟩)
  constructor
  · intro same
    rw [root_union_eq_iff] at same
    simp only [represents _ _] at same
    rcases same with before | ⟨toFirst, toSecond⟩ | ⟨toSecond, toFirst⟩
    · exact wider _ _ before
    · exact (wider _ _ toFirst).trans _ _ _ (joined.trans _ _ _ ((wider _ _ toSecond).symm _ _))
    · exact (wider _ _ toSecond).trans _ _ _
        ((joined.symm _ _).trans _ _ _ ((wider _ _ toFirst).symm _ _))
  · intro generated
    induction generated with
    | rel left right link =>
      rw [root_union_eq_iff]
      rcases link with before | ⟨rfl, rfl⟩
      · exact Or.inl ((represents _ _).mpr (.rel _ _ before))
      · exact Or.inr (Or.inl ⟨rfl, rfl⟩)
    | refl _ => rfl
    | symm _ _ _ ih => exact ih.symm
    | trans _ _ _ _ _ ih ih' => exact ih.trans ih'

end Classes

end UnionFind

end Egregore.Base
