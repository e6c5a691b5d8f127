import Mathlib.Data.List.Chain
import Mathlib.Data.List.Lex
import Mathlib.Data.List.Nodup
import Mathlib.Data.Finset.Card
import Mathlib.Data.Finset.Max
import Mathlib.Data.Finset.Dedup
import Mathlib.Tactic.Common

/-!
# Elementary cycles

An elementary cycle of a graph is written once, from its least vertex. Extending
a path in every way until it closes lists the cycles that start with it, in
lexicographic order when the successors of each vertex are increasing.
-/

namespace Egregore.Base

variable {α : Type*} [LinearOrder α] {next : α → List α}

/-- A path from the root that repeats no vertex and stays above the root. -/
structure PathFrom (next : α → List α) (root : α) (path : List α) : Prop where
  starts : path.head? = some root
  nodup : path.Nodup
  chain : path.IsChain fun v w => w ∈ next v
  above : ∀ v ∈ path, root ≤ v

/-- An elementary cycle, written from its least vertex; its last vertex leads back to it. -/
structure CycleFrom (next : α → List α) (root : α) (cycle : List α) : Prop
    extends PathFrom next root cycle where
  closes : ∃ last, cycle.getLast? = some last ∧ root ∈ next last

/-- An elementary cycle of the graph. -/
def ElementaryCycle (next : α → List α) (cycle : List α) : Prop :=
  ∃ root, CycleFrom next root cycle

namespace PathFrom

variable {root v w : α} {path : List α}

theorem root_mem (walk : PathFrom next root path) : root ∈ path :=
  List.mem_of_head? walk.starts

theorem ne_nil (walk : PathFrom next root path) : path ≠ [] :=
  List.ne_nil_of_mem walk.root_mem

theorem singleton (root : α) : PathFrom next root [root] where
  starts := rfl
  nodup := List.nodup_singleton root
  chain := List.isChain_singleton root
  above := by simp

theorem snoc (walk : PathFrom next root path) (ends : path.getLast? = some v) (edge : w ∈ next v)
    (fresh : w ∉ path) (above : root ≤ w) : PathFrom next root (path ++ [w]) where
  starts := by rw [List.head?_append_of_ne_nil _ walk.ne_nil, walk.starts]
  nodup := by
    rw [← List.concat_eq_append]
    exact walk.nodup.concat fresh
  chain := by
    refine walk.chain.append (List.isChain_singleton w) ?_
    intro last isLast first isFirst
    rw [ends, Option.mem_some_iff] at isLast
    rw [List.head?_singleton, Option.mem_some_iff] at isFirst
    subst isLast isFirst
    exact edge
  above u member := by
    rcases List.mem_append.mp member with earlier | new
    · exact walk.above u earlier
    · rwa [List.mem_singleton.mp new]

/-- A path has no more vertices than the universe it stays in. -/
theorem length_le_card {vertices : Finset α} (walk : PathFrom next root path)
    (inside : ∀ v ∈ path, v ∈ vertices) : path.length ≤ vertices.card := by
  rw [← List.toFinset_card_of_nodup walk.nodup]
  apply Finset.card_le_card
  intro v member
  exact inside v (List.mem_toFinset.mp member)

end PathFrom

/-- The ways to extend a path, whose last vertex is given, to an elementary cycle from the root. -/
def closings (next : α → List α) (root : α) : Nat → List α → α → List (List α)
  | 0, _, _ => []
  | fuel + 1, path, v =>
      (next v).flatMap fun w =>
        if w < root then []
        else if w = root then [path]
        else if w ∈ path then []
        else closings next root fuel (path ++ [w]) w

section Closings

variable {root : α}

/-- A cycle that a path was extended to starts with it. -/
theorem prefix_of_mem_closings (fuel : Nat) (path : List α) (v : α) {cycle : List α}
    (member : cycle ∈ closings next root fuel path v) : path <+: cycle := by
  induction fuel generalizing path v with
  | zero => simp [closings] at member
  | succ fuel ih =>
      rw [closings, List.mem_flatMap] at member
      obtain ⟨w, -, member⟩ := member
      split_ifs at member with below isRoot onPath
      · simp at member
      · rw [List.mem_singleton.mp member]
      · simp at member
      · exact (List.prefix_append _ _).trans (ih (path ++ [w]) w member)

theorem cycleFrom_of_mem_closings (fuel : Nat) {path : List α} {v : α}
    (walk : PathFrom next root path) (ends : path.getLast? = some v) {cycle : List α}
    (member : cycle ∈ closings next root fuel path v) : CycleFrom next root cycle := by
  induction fuel generalizing path v with
  | zero => simp [closings] at member
  | succ fuel ih =>
      rw [closings, List.mem_flatMap] at member
      obtain ⟨w, edge, member⟩ := member
      split_ifs at member with below isRoot onPath
      · simp at member
      · rw [List.mem_singleton.mp member]
        exact ⟨walk, v, ends, isRoot ▸ edge⟩
      · simp at member
      · exact ih (walk.snoc ends edge onPath (not_lt.mp below)) (by simp) member

/-- With fuel for every vertex that is not on the path, no cycle is missed. -/
theorem mem_closings_of_prefix {vertices : Finset α}
    (inside : ∀ v, ∀ w ∈ next v, w ∈ vertices) (fuel : Nat) {path : List α} {v : α}
    (walk : PathFrom next root path) (within : ∀ u ∈ path, u ∈ vertices)
    (ends : path.getLast? = some v) (enough : vertices.card < fuel + path.length)
    {cycle : List α} (closed : CycleFrom next root cycle) (begins : path <+: cycle) :
    cycle ∈ closings next root fuel path v := by
  induction fuel generalizing path v with
  | zero =>
      have := walk.length_le_card within
      omega
  | succ fuel ih =>
      rw [closings, List.mem_flatMap]
      obtain ⟨rest, rfl⟩ := begins
      cases rest with
      | nil =>
          obtain ⟨last, isLast, back⟩ := closed.closes
          rw [List.append_nil, ends, Option.some.injEq] at isLast
          subst isLast
          refine ⟨root, back, ?_⟩
          rw [if_neg (lt_irrefl root), if_pos rfl, List.append_nil]
          exact List.mem_singleton_self path
      | cons w rest =>
          have edge : w ∈ next v := by
            have linked := (List.isChain_append.mp closed.chain).2.2
            exact linked v ends w rfl
          have fresh : w ∉ path := fun onPath =>
            (List.nodup_append.mp closed.nodup).2.2 w onPath w List.mem_cons_self rfl
          have above : root ≤ w := closed.above w (by simp)
          have other : w ≠ root := fun same => fresh (same ▸ walk.root_mem)
          refine ⟨w, edge, ?_⟩
          rw [if_neg (not_lt.mpr above), if_neg other, if_neg fresh]
          refine ih (walk.snoc ends edge fresh above) ?_ (by simp) ?_ (by simp)
          · intro u member
            rcases List.mem_append.mp member with earlier | new
            · exact within u earlier
            · rw [List.mem_singleton.mp new]
              exact inside v w edge
          · rw [List.length_append, List.length_singleton]
            omega

/-- What one successor contributes: the path itself if it closes it, or cycles that go on with the
successor. -/
theorem shape_of_mem_closings {fuel : Nat} {path : List α} {w : α} {cycle : List α}
    (member : cycle ∈
      if w < root then []
      else if w = root then [path]
      else if w ∈ path then []
      else closings next root fuel (path ++ [w]) w) :
    root ≤ w ∧ ((w = root ∧ cycle = path) ∨ ∃ rest, cycle = path ++ w :: rest) := by
  split_ifs at member with below isRoot onPath
  · simp at member
  · exact ⟨not_lt.mp below, Or.inl ⟨isRoot, List.mem_singleton.mp member⟩⟩
  · simp at member
  · obtain ⟨rest, rfl⟩ := prefix_of_mem_closings fuel _ _ member
    exact ⟨not_lt.mp below, Or.inr ⟨rest, by simp⟩⟩

/-- Extending the paths of increasing successors in order keeps the cycles in order. -/
theorem closings_pairwise (increasing : ∀ v, (next v).Pairwise (· < ·)) (fuel : Nat)
    (path : List α) (v : α) : (closings next root fuel path v).Pairwise (· < ·) := by
  induction fuel generalizing path v with
  | zero => exact List.Pairwise.nil
  | succ fuel ih =>
      rw [closings, List.pairwise_flatMap]
      constructor
      · intro w _
        split_ifs
        · exact List.Pairwise.nil
        · exact List.pairwise_singleton _ _
        · exact List.Pairwise.nil
        · exact ih _ _
      · refine (increasing v).imp fun {w x} less => ?_
        intro first isFirst second isSecond
        obtain ⟨wAbove, wShape⟩ := shape_of_mem_closings isFirst
        obtain ⟨-, xShape⟩ := shape_of_mem_closings isSecond
        have later : x ≠ root := (lt_of_le_of_lt wAbove less).ne'
        obtain ⟨isRoot, -⟩ | ⟨after, rfl⟩ := xShape
        · exact absurd isRoot later
        · obtain ⟨-, rfl⟩ | ⟨rest, rfl⟩ := wShape
          · have longer : first ++ [] < first ++ x :: after :=
              List.append_left_lt (List.nil_lt_cons x after)
            rwa [List.append_nil] at longer
          · exact List.append_left_lt (List.cons_lt_cons_iff.mpr (Or.inl less))

end Closings

section All

/-- The elementary cycles of a graph, root by root. -/
def elementaryCycles (next : α → List α) (fuel : Nat) (roots : List α) : List (List α) :=
  roots.flatMap fun root => closings next root fuel [root] root

theorem mem_elementaryCycles_iff {vertices : Finset α}
    (inside : ∀ v, ∀ w ∈ next v, w ∈ vertices) {fuel : Nat} (enough : vertices.card < fuel + 1)
    {roots : List α} (all : ∀ v, v ∈ roots ↔ v ∈ vertices) {cycle : List α} :
    cycle ∈ elementaryCycles next fuel roots ↔ ElementaryCycle next cycle := by
  rw [elementaryCycles, List.mem_flatMap]
  constructor
  · rintro ⟨root, -, member⟩
    exact ⟨root, cycleFrom_of_mem_closings fuel (PathFrom.singleton root) rfl member⟩
  · rintro ⟨root, closed⟩
    obtain ⟨last, -, back⟩ := closed.closes
    have isVertex := inside last root back
    refine ⟨root, (all root).mpr isVertex, ?_⟩
    refine mem_closings_of_prefix inside fuel (PathFrom.singleton root) ?_ rfl enough closed ?_
    · intro u member
      rwa [List.mem_singleton.mp member]
    · cases cycle with
      | nil => exact absurd rfl closed.ne_nil
      | cons first rest =>
          have starts := closed.starts
          rw [List.head?_cons, Option.some.injEq] at starts
          subst starts
          exact ⟨rest, rfl⟩

theorem elementaryCycles_pairwise (increasing : ∀ v, (next v).Pairwise (· < ·)) (fuel : Nat)
    {roots : List α} (ordered : roots.Pairwise (· < ·)) :
    (elementaryCycles next fuel roots).Pairwise (· < ·) := by
  rw [elementaryCycles, List.pairwise_flatMap]
  refine ⟨fun root _ => closings_pairwise increasing fuel _ _, ordered.imp fun {v w} less => ?_⟩
  intro first isFirst second isSecond
  obtain ⟨rest, rfl⟩ := prefix_of_mem_closings fuel _ _ isFirst
  obtain ⟨after, rfl⟩ := prefix_of_mem_closings fuel _ _ isSecond
  exact List.cons_lt_cons_iff.mpr (Or.inl less)

end All

/-! ## Closed paths -/

section Closed

variable {α β : Type*}

/-- A closed path that repeats no vertex, written from any of them. -/
structure ClosedPath (step : α → α → Prop) (path : List α) : Prop where
  ne_nil : path ≠ []
  nodup : path.Nodup
  chain : path.IsChain step
  closes : ∀ last ∈ path.getLast?, ∀ first ∈ path.head?, step last first

variable {step : α → α → Prop} {path : List α}

/-- The image of a closed path under a map that keeps its vertices apart and its steps. -/
theorem ClosedPath.map {step' : β → β → Prop} (closed : ClosedPath step path) (f : α → β)
    (apart : ∀ v ∈ path, ∀ w ∈ path, f v = f w → v = w)
    (steps : ∀ v ∈ path, ∀ w ∈ path, step v w → step' (f v) (f w)) :
    ClosedPath step' (path.map f) := by
  obtain ⟨ne_nil, nodup, chain, closes⟩ := closed
  refine ⟨by simpa using ne_nil, ?_, ?_, ?_⟩
  · exact nodup.map_on apart
  · rw [List.isChain_map]
    exact List.IsChain.imp_of_mem_imp (fun v w hv hw s => steps v hv w hw s) chain
  · intro last isLast first isFirst
    rw [List.getLast?_map, Option.mem_def] at isLast
    rw [List.head?_map, Option.mem_def] at isFirst
    obtain ⟨v, ends, rfl⟩ := Option.map_eq_some_iff.mp isLast
    obtain ⟨w, starts, rfl⟩ := Option.map_eq_some_iff.mp isFirst
    exact steps v (List.mem_of_getLast? ends) w (List.mem_of_head? starts) (closes v ends w starts)

end Closed

section Least

variable {α : Type*} [LinearOrder α] {next : α → List α}

/-- A list of all elementary cycles, in lexicographic order. -/
structure ListsCycles (next : α → List α) (cycles : List (List α)) : Prop where
  ordered : cycles.Pairwise (· < ·)
  complete : ∀ cycle, cycle ∈ cycles ↔ ElementaryCycle next cycle

/-- There is only one such list. -/
theorem ListsCycles.unique {cycles others : List (List α)} (lists : ListsCycles next cycles)
    (lists' : ListsCycles next others) : cycles = others := by
  have same : cycles.Perm others := by
    rw [List.perm_ext_iff_of_nodup (lists.ordered.imp ne_of_lt) (lists'.ordered.imp ne_of_lt)]
    exact fun cycle => (lists.complete cycle).trans (lists'.complete cycle).symm
  exact same.eq_of_pairwise (fun _ _ _ _ less greater => absurd less (lt_asymm greater))
    lists.ordered lists'.ordered

end Least

end Egregore.Base
