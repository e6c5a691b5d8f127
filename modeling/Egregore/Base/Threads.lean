import Mathlib.Algebra.BigOperators.Group.Finset.Piecewise
import Mathlib.Data.Fintype.Card
import Mathlib.Logic.Relation

/-!
# Threads

Threads over a shared state. Each has a local state, its place in its code, and one of them
at a time moves: in one step it reads and writes what is shared and its own local state. A run
takes the moves in any order.
-/

namespace Egregore.Base

/-- The local states of the threads, and what they share. -/
structure Threads (Thread Local Shared : Type*) where
  locals : Thread → Local
  shared : Shared

namespace Threads

variable {Thread Local Shared : Type*} [DecidableEq Thread]

/-- What is left once `thread` has moved. -/
def after (state : Threads Thread Local Shared) (thread : Thread) (next : Local)
    (shared : Shared) : Threads Thread Local Shared where
  locals := Function.update state.locals thread next
  shared := shared

section After

variable {state : Threads Thread Local Shared} {thread other : Thread} {next : Local}
  {shared : Shared}

@[simp] theorem after_shared : (state.after thread next shared).shared = shared := rfl

@[simp] theorem after_locals_self : (state.after thread next shared).locals thread = next :=
  Function.update_self ..

@[simp] theorem after_locals_of_ne (apart : other ≠ thread) :
    (state.after thread next shared).locals other = state.locals other :=
  Function.update_of_ne apart ..

/-- Every local state keeps what the moved thread keeps. -/
theorem forall_after {kind : Local → Prop} (all : ∀ other, kind (state.locals other))
    (kept : kind next) : ∀ other, kind ((state.after thread next shared).locals other) := by
  intro other
  by_cases same : other = thread
  · subst same
    rwa [after_locals_self]
  · rw [after_locals_of_ne same]
    exact all other

/-- A thread of a kind is still there if the moved thread is not the one to leave it. -/
theorem exists_after {kind : Local → Prop} (some : ∃ other, kind (state.locals other))
    (kept : kind (state.locals thread) → kind next) :
    ∃ other, kind ((state.after thread next shared).locals other) := by
  obtain ⟨other, isKind⟩ := some
  by_cases same : other = thread
  · subst same
    exact ⟨other, by rw [after_locals_self]; exact kept isKind⟩
  · exact ⟨other, by rwa [after_locals_of_ne same]⟩

end After

section Runs

variable {moves : Local → Shared → Local → Shared → Prop}

/-- One thread moves. -/
inductive Step (moves : Local → Shared → Local → Shared → Prop) :
    Threads Thread Local Shared → Threads Thread Local Shared → Prop where
  | move {state : Threads Thread Local Shared} (thread : Thread) {next : Local} {shared : Shared}
      (moved : moves (state.locals thread) state.shared next shared) :
      Step moves state (state.after thread next shared)

/-- Moves of any threads, one after the other. -/
def Runs (moves : Local → Shared → Local → Shared → Prop) :
    Threads Thread Local Shared → Threads Thread Local Shared → Prop :=
  Relation.ReflTransGen (Step moves)

/-- What every move keeps holds after every run. -/
theorem Runs.invariant {holds : Threads Thread Local Shared → Prop}
    {start last : Threads Thread Local Shared} (runs : Runs moves start last)
    (initially : holds start)
    (kept : ∀ state thread next shared, holds state →
      moves (state.locals thread) state.shared next shared →
      holds (state.after thread next shared)) : holds last := by
  induction runs with
  | refl => exact initially
  | tail _ step invariant =>
      cases step with
      | move thread moved => exact kept _ thread _ _ invariant moved

end Runs

section Count

variable [Fintype Thread] {kind : Local → Prop} [DecidablePred kind]
  {state : Threads Thread Local Shared} {thread : Thread} {next : Local}

/-- The number of threads of a kind. -/
def count (kind : Local → Prop) [DecidablePred kind] (state : Threads Thread Local Shared) : Nat :=
  (Finset.univ.filter fun thread => kind (state.locals thread)).card

omit [DecidableEq Thread] in
theorem count_eq_zero (none : ∀ thread, ¬ kind (state.locals thread)) : state.count kind = 0 := by
  rw [count, Finset.card_eq_zero, Finset.filter_eq_empty_iff]
  exact fun thread _ => none thread

omit [DecidableEq Thread] in
/-- One thread that is not of the kind leaves the count below the number of threads. -/
theorem count_lt_card (notKind : ¬ kind (state.locals thread)) :
    state.count kind < Fintype.card Thread := by
  rw [← Finset.card_univ]
  apply Finset.card_lt_card
  rw [Finset.filter_ssubset]
  exact ⟨thread, Finset.mem_univ thread, notKind⟩

omit [DecidableEq Thread] in
theorem count_eq_sum :
    state.count kind = ∑ thread, if kind (state.locals thread) then 1 else 0 :=
  Finset.card_filter ..

/-- A move counts for the thread that makes it. -/
theorem count_after (kind : Local → Prop) [DecidablePred kind]
    (state : Threads Thread Local Shared) (thread : Thread) (next : Local) (shared : Shared) :
    (state.after thread next shared).count kind + (if kind (state.locals thread) then 1 else 0) =
      state.count kind + if kind next then 1 else 0 := by
  have others : ∑ other ∈ Finset.univ.erase thread,
      (if kind ((state.after thread next shared).locals other) then 1 else 0) =
      ∑ other ∈ Finset.univ.erase thread, if kind (state.locals other) then 1 else 0 := by
    apply Finset.sum_congr rfl
    intro other member
    rw [after_locals_of_ne (Finset.ne_of_mem_erase member)]
  rw [count_eq_sum, count_eq_sum, ← Finset.sum_erase_add _ _ (Finset.mem_univ thread), others,
    ← Finset.sum_erase_add Finset.univ (fun other => if kind (state.locals other) then 1 else 0)
      (Finset.mem_univ thread), after_locals_self]
  omega

theorem count_after_enters (shared : Shared) (before : ¬ kind (state.locals thread))
    (enters : kind next) :
    (state.after thread next shared).count kind = state.count kind + 1 := by
  have counts := count_after kind state thread next shared
  simpa [before, enters] using counts

theorem count_after_leaves (shared : Shared) (before : kind (state.locals thread))
    (leaves : ¬ kind next) :
    (state.after thread next shared).count kind + 1 = state.count kind := by
  have counts := count_after kind state thread next shared
  simpa [before, leaves] using counts

theorem count_after_stays (shared : Shared) (stays : kind next ↔ kind (state.locals thread)) :
    (state.after thread next shared).count kind = state.count kind := by
  have counts := count_after kind state thread next shared
  simpa [stays] using counts

end Count

end Threads

end Egregore.Base
