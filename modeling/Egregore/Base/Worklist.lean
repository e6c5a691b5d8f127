import Mathlib.Algebra.GroupWithZero.Nat
import Mathlib.Data.List.Basic
import Mathlib.Logic.Relation
import Mathlib.Tactic.Common

/-!
# Worklist walks

A stack-driven walk that visits every node once, pushes its successors and lets
each visit update a state. `walk_closed` says that with enough fuel the nodes
seen are closed under the successor function; `walk_sound` that nothing else is
seen; `walk_visits` that the state is the fold of the visits.
-/

namespace Egregore.Base

variable {α σ : Type*} [DecidableEq α]

/-- Pop a node; skip it when already seen, otherwise visit it and push its
successors. Returns the nodes seen, latest first, and the final state. -/
def walk (next : α → List α) (visit : α → σ → σ) :
    Nat → List α → List α → σ → List α × σ
  | 0, _, seen, state => (seen, state)
  | _ + 1, [], seen, state => (seen, state)
  | fuel + 1, node :: stack, seen, state =>
      if node ∈ seen then walk next visit fuel stack seen state
      else walk next visit fuel ((next node).reverse ++ stack) (node :: seen) (visit node state)

/-- `target` can be reached from `source` by following successors. -/
abbrev Reaches (next : α → List α) (source target : α) : Prop :=
  Relation.ReflTransGen (fun node successor => successor ∈ next node) source target

variable (next : α → List α) (visit : α → σ → σ)

/-- A walk only adds nodes, each visited once, and folds its visits. -/
theorem walk_visits (fuel : Nat) (stack seen : List α) (state : σ) :
    ∃ visited : List α,
      (walk next visit fuel stack seen state).1 = visited.reverse ++ seen ∧
      (walk next visit fuel stack seen state).2 =
        visited.foldl (fun state node => visit node state) state := by
  induction fuel generalizing stack seen state with
  | zero => exact ⟨[], rfl, rfl⟩
  | succ fuel ih =>
      cases stack with
      | nil => exact ⟨[], rfl, rfl⟩
      | cons node stack =>
          by_cases visited : node ∈ seen
          · simp only [walk, visited, if_true]
            exact ih stack seen state
          · simp only [walk, visited, if_false]
            obtain ⟨later, seen_eq, state_eq⟩ :=
              ih ((next node).reverse ++ stack) (node :: seen) (visit node state)
            exact ⟨node :: later, by simp [seen_eq], by simp [state_eq]⟩

theorem seen_subset_walk (fuel : Nat) (stack seen : List α) (state : σ) {node : α}
    (member : node ∈ seen) : node ∈ (walk next visit fuel stack seen state).1 := by
  obtain ⟨visited, seen_eq, -⟩ := walk_visits next visit fuel stack seen state
  rw [seen_eq]
  exact List.mem_append_right _ member

/-- Every node of the result was already seen or is reached from the stack. -/
theorem walk_sound (fuel : Nat) (stack seen : List α) (state : σ) {node : α}
    (member : node ∈ (walk next visit fuel stack seen state).1) :
    node ∈ seen ∨ ∃ source ∈ stack, Reaches next source node := by
  induction fuel generalizing stack seen state with
  | zero => exact Or.inl member
  | succ fuel ih =>
      cases stack with
      | nil => exact Or.inl member
      | cons head stack =>
          by_cases visited : head ∈ seen
          · simp only [walk, visited, if_true] at member
            rcases ih stack seen state member with old | ⟨source, onStack, path⟩
            · exact Or.inl old
            · exact Or.inr ⟨source, List.mem_cons_of_mem _ onStack, path⟩
          · simp only [walk, visited, if_false] at member
            rcases ih _ _ _ member with old | ⟨source, onStack, path⟩
            · rcases List.mem_cons.mp old with rfl | old
              · exact Or.inr ⟨node, by simp, .refl⟩
              · exact Or.inl old
            · rcases List.mem_append.mp onStack with successor | onStack
              · exact Or.inr ⟨head, by simp, .head (List.mem_reverse.mp successor) path⟩
              · exact Or.inr ⟨source, List.mem_cons_of_mem _ onStack, path⟩

/-- The pushes still possible: what is on the stack, and the successors of the
`nodes` not yet seen. -/
def pendingPushes (nodes stack seen : List α) : Nat :=
  stack.length + ((nodes.filter (· ∉ seen)).map fun node => (next node).length).sum

private theorem sum_unseen_cons {nodes seen : List α} {node : α} (known : node ∈ nodes)
    (unseen : node ∉ seen) :
    (next node).length +
        ((nodes.filter (· ∉ node :: seen)).map fun node => (next node).length).sum ≤
      ((nodes.filter (· ∉ seen)).map fun node => (next node).length).sum := by
  induction nodes with
  | nil => simp at known
  | cons head tail ih =>
      have shrink :
          ((tail.filter (· ∉ node :: seen)).map fun node => (next node).length).sum ≤
            ((tail.filter (· ∉ seen)).map fun node => (next node).length).sum := by
        clear ih known
        induction tail with
        | nil => simp
        | cons first rest inner =>
            by_cases same : first = node
            · subst same
              simp [unseen]
              simp at inner
              omega
            · by_cases old : first ∈ seen <;> simp_all
      by_cases same : head = node
      · subst same
        simp [unseen] at shrink ⊢
        omega
      · have known : node ∈ tail := by simpa [Ne.symm same] using known
        have := ih known
        by_cases old : head ∈ seen <;> simp_all
        omega

/-- Visiting a node pays for what it pushes. -/
private theorem pendingPushes_visit {nodes : List α}
    (leaf : ∀ node, node ∉ nodes → next node = []) {fuel : Nat} {head : α}
    {stack seen pushed : List α} (unseen : head ∉ seen)
    (few : pushed.length ≤ (next head).length)
    (enough : pendingPushes next nodes (head :: stack) seen ≤ fuel + 1) :
    pendingPushes next nodes (pushed ++ stack) (head :: seen) ≤ fuel := by
  simp only [pendingPushes, List.length_append, List.length_cons] at enough ⊢
  by_cases known : head ∈ nodes
  · have := sum_unseen_cons next known unseen
    omega
  · have noSuccessors := leaf head known
    have same : nodes.filter (· ∉ head :: seen) = nodes.filter (· ∉ seen) := by
      apply List.filter_congr
      intro node member
      have : node ≠ head := fun equal => known (equal ▸ member)
      simp [this]
    rw [noSuccessors, List.length_nil] at few
    rw [same]
    omega

omit [DecidableEq α] in
/-- Dropping a seen node from the stack leaves no successor behind. -/
private theorem settled_of_visited {head : α} {stack seen : List α} (visited : head ∈ seen)
    (settled : ∀ node ∈ seen, ∀ successor ∈ next node,
      successor ∈ seen ∨ successor ∈ head :: stack) :
    ∀ node ∈ seen, ∀ successor ∈ next node, successor ∈ seen ∨ successor ∈ stack := by
  intro node member successor edge
  rcases settled node member successor edge with old | onStack
  · exact Or.inl old
  · rcases List.mem_cons.mp onStack with rfl | onStack
    · exact Or.inl visited
    · exact Or.inr onStack

/-- With fuel for every possible push the walk leaves nothing behind: it reaches
the stack, and what it has seen is closed under successors. -/
theorem walk_closed {nodes : List α} (leaf : ∀ node, node ∉ nodes → next node = [])
    (fuel : Nat) (stack seen : List α) (state : σ)
    (enough : pendingPushes next nodes stack seen ≤ fuel)
    (settled : ∀ node ∈ seen, ∀ successor ∈ next node, successor ∈ seen ∨ successor ∈ stack) :
    (∀ node ∈ stack, node ∈ (walk next visit fuel stack seen state).1) ∧
      ∀ node ∈ (walk next visit fuel stack seen state).1, ∀ successor ∈ next node,
        successor ∈ (walk next visit fuel stack seen state).1 := by
  induction fuel generalizing stack seen state with
  | zero =>
      have empty : stack = [] := List.length_eq_zero_iff.mp (by
        simp only [pendingPushes] at enough; omega)
      subst empty
      exact ⟨by simp, fun node member successor edge => by
        simpa [walk] using settled node member successor edge⟩
  | succ fuel ih =>
      cases stack with
      | nil =>
          exact ⟨by simp, fun node member successor edge => by
            simpa [walk] using settled node member successor edge⟩
      | cons head stack =>
          by_cases visited : head ∈ seen
          · simp only [walk, visited, if_true]
            obtain ⟨covers, closed⟩ := ih stack seen state
              (by simp only [pendingPushes, List.length_cons] at enough ⊢; omega)
              (settled_of_visited next visited settled)
            refine ⟨fun node member => ?_, closed⟩
            rcases List.mem_cons.mp member with rfl | member
            · exact seen_subset_walk next visit fuel stack seen state visited
            · exact covers node member
          · simp only [walk, visited, if_false]
            have settled' : ∀ node ∈ head :: seen, ∀ successor ∈ next node,
                successor ∈ head :: seen ∨ successor ∈ (next head).reverse ++ stack := by
              intro node member successor edge
              rcases List.mem_cons.mp member with rfl | member
              · exact Or.inr (List.mem_append_left _ (List.mem_reverse.mpr edge))
              · rcases settled node member successor edge with old | onStack
                · exact Or.inl (List.mem_cons_of_mem _ old)
                · rcases List.mem_cons.mp onStack with rfl | onStack
                  · exact Or.inl (by simp)
                  · exact Or.inr (List.mem_append_right _ onStack)
            obtain ⟨covers, closed⟩ :=
              ih ((next head).reverse ++ stack) (head :: seen) (visit head state)
                (pendingPushes_visit next leaf visited (by simp) enough) settled'
            refine ⟨fun node member => ?_, closed⟩
            rcases List.mem_cons.mp member with rfl | member
            · exact seen_subset_walk next visit _ _ _ _ (by simp)
            · exact covers node (List.mem_append_right _ member)

/-- What a closed walk sees is exactly what was seen or is reachable. -/
theorem mem_walk_iff {nodes : List α} (leaf : ∀ node, node ∉ nodes → next node = [])
    (fuel : Nat) (stack seen : List α) (state : σ)
    (enough : pendingPushes next nodes stack seen ≤ fuel)
    (settled : ∀ node ∈ seen, ∀ successor ∈ next node, successor ∈ seen ∨ successor ∈ stack)
    (node : α) :
    node ∈ (walk next visit fuel stack seen state).1 ↔
      node ∈ seen ∨ ∃ source ∈ stack, Reaches next source node := by
  obtain ⟨covers, closed⟩ :=
    walk_closed next visit leaf fuel stack seen state enough settled
  constructor
  · exact walk_sound next visit fuel stack seen state
  · rintro (old | ⟨source, onStack, path⟩)
    · exact seen_subset_walk next visit fuel stack seen state old
    · induction path with
      | refl => exact covers source onStack
      | tail _ edge ih => exact closed _ ih _ edge

/-- Pop a node; skip it when already seen, otherwise push those of its successors that are not
seen yet. Returns the nodes seen. -/
def walkFresh (next : α → List α) : Nat → List α → List α → List α
  | 0, _, seen => seen
  | _ + 1, [], seen => seen
  | fuel + 1, node :: stack, seen =>
      if node ∈ seen then walkFresh next fuel stack seen
      else walkFresh next fuel (((next node).filter (· ∉ node :: seen)).reverse ++ stack)
        (node :: seen)

/-- A walk that pushes fresh successors only leaves nothing behind either, and sees nothing
else. -/
theorem walkFresh_spec {nodes : List α} (leaf : ∀ node, node ∉ nodes → next node = [])
    (fuel : Nat) (stack seen : List α) (enough : pendingPushes next nodes stack seen ≤ fuel)
    (settled : ∀ node ∈ seen, ∀ successor ∈ next node, successor ∈ seen ∨ successor ∈ stack) :
    (∀ node, node ∈ seen ∨ node ∈ stack → node ∈ walkFresh next fuel stack seen) ∧
      (∀ node ∈ walkFresh next fuel stack seen, ∀ successor ∈ next node,
        successor ∈ walkFresh next fuel stack seen) ∧
      ∀ node ∈ walkFresh next fuel stack seen,
        node ∈ seen ∨ ∃ source ∈ stack, Reaches next source node := by
  induction fuel generalizing stack seen with
  | zero =>
      obtain rfl : stack = [] := List.length_eq_zero_iff.mp (by
        simp only [pendingPushes] at enough
        omega)
      simpa [walkFresh] using settled
  | succ fuel ih =>
      cases stack with
      | nil => simpa [walkFresh] using settled
      | cons head stack =>
          by_cases visited : head ∈ seen
          · rw [walkFresh, if_pos visited]
            obtain ⟨covers, closed, sound⟩ := ih stack seen
              (by simp only [pendingPushes, List.length_cons] at enough ⊢; omega)
              (settled_of_visited next visited settled)
            refine ⟨fun node member => covers node ?_, closed, fun node member => ?_⟩
            · rcases member with old | onStack
              · exact .inl old
              · rcases List.mem_cons.mp onStack with rfl | onStack
                · exact .inl visited
                · exact .inr onStack
            · rcases sound node member with old | ⟨source, onStack, path⟩
              · exact .inl old
              · exact .inr ⟨source, List.mem_cons_of_mem _ onStack, path⟩
          · rw [walkFresh, if_neg visited]
            have pushed : ∀ node, node ∈ ((next head).filter (· ∉ head :: seen)).reverse ↔
                node ∈ next head ∧ node ∉ head :: seen := by
              intro node
              rw [List.mem_reverse, List.mem_filter, decide_eq_true_eq]
            have settled' : ∀ node ∈ head :: seen, ∀ successor ∈ next node,
                successor ∈ head :: seen ∨
                  successor ∈ ((next head).filter (· ∉ head :: seen)).reverse ++ stack := by
              intro node member successor edge
              rcases List.mem_cons.mp member with rfl | member
              · by_cases old : successor ∈ node :: seen
                · exact .inl old
                · exact .inr (List.mem_append_left _ ((pushed successor).mpr ⟨edge, old⟩))
              · rcases settled node member successor edge with old | onStack
                · exact .inl (List.mem_cons_of_mem _ old)
                · rcases List.mem_cons.mp onStack with rfl | onStack
                  · exact .inl (by simp)
                  · exact .inr (List.mem_append_right _ onStack)
            obtain ⟨covers, closed, sound⟩ := ih _ (head :: seen)
              (pendingPushes_visit next leaf visited
                (by simpa using List.length_filter_le _ (next head)) enough) settled'
            refine ⟨fun node member => covers node ?_, closed, fun node member => ?_⟩
            · rcases member with old | onStack
              · exact .inl (List.mem_cons_of_mem _ old)
              · rcases List.mem_cons.mp onStack with rfl | onStack
                · exact .inl List.mem_cons_self
                · exact .inr (List.mem_append_right _ onStack)
            · rcases sound node member with old | ⟨source, onStack, path⟩
              · rcases List.mem_cons.mp old with rfl | old
                · exact .inr ⟨node, List.mem_cons_self, .refl⟩
                · exact .inl old
              · rcases List.mem_append.mp onStack with fresh | onStack
                · exact .inr ⟨head, List.mem_cons_self, .head ((pushed source).mp fresh).1 path⟩
                · exact .inr ⟨source, List.mem_cons_of_mem _ onStack, path⟩

/-- From one source the walk sees what the source reaches. -/
theorem mem_walkFresh_iff {nodes : List α} (leaf : ∀ node, node ∉ nodes → next node = [])
    (source node : α) :
    node ∈ walkFresh next (pendingPushes next nodes [source] []) [source] [] ↔
      Reaches next source node := by
  obtain ⟨covers, closed, sound⟩ := walkFresh_spec next leaf _ [source] [] (Nat.le_refl _)
    (fun _ member => nomatch member)
  constructor
  · intro member
    rcases sound node member with old | ⟨other, onStack, path⟩
    · cases old
    · exact List.mem_singleton.mp onStack ▸ path
  · intro path
    induction path with
    | refl => exact covers source (.inr List.mem_cons_self)
    | tail _ edge ih => exact closed _ ih _ edge

end Egregore.Base
