import Egregore.Base.Flood

/-!
# Breadth-first visits

A queue-driven walk that visits each node as it is popped and enqueues the successors met for the
first time. With enough fuel it visits its sources and then, once each, the other nodes they reach.
`breadthFirst_spec` is for any successors within a finite list of nodes, and any visit.
-/

namespace Egregore.Base

variable {α σ : Type*} [DecidableEq α]

/-- Pop a node, visit it and meet its successors. -/
def breadthFirst (next : α → List α) (visit : α → σ → σ) : Nat → List α → List α → σ → σ
  | 0, _, _, state => state
  | _ + 1, [], _, state => state
  | fuel + 1, node :: queue, enqueued, state =>
      let step := (next node).foldl (meet fun _ state => state) (queue, enqueued, visit node state)
      breadthFirst next visit fuel step.1 step.2.1 step.2.2

variable {next : α → List α}

private theorem foldl_meet_silent (nodes queue enqueued : List α) (state : σ) :
    ∃ fresh : List α, fresh.Nodup ∧ (∀ node, node ∈ fresh ↔ node ∈ nodes ∧ node ∉ enqueued) ∧
      nodes.foldl (meet fun _ state => state) (queue, enqueued, state) =
        (queue ++ fresh, enqueued ++ fresh, state) := by
  obtain ⟨fresh, nodup, members, folded⟩ := foldl_meet (fun _ state => state) nodes queue enqueued state
  refine ⟨fresh, nodup, members, folded.trans ?_⟩
  have silent : nodes.foldl (fun state _ => state) state = state := by
    clear folded members
    induction nodes with
    | nil => rfl
    | cons node nodes ih => exact ih
  rw [silent]

/-- A walk visits its queue, and then the nodes it finds. -/
theorem breadthFirst_eq {nodes : List α}
    (inside : ∀ node, ∀ successor ∈ next node, successor ∈ nodes) (visit : α → σ → σ) (fuel : Nat)
    (queue enqueued : List α) (state : σ)
    (enough : queue.length + (nodes.filter (· ∉ enqueued)).length ≤ fuel) :
    ∃ found : List α, found.Nodup ∧ (∀ node ∈ found, node ∉ enqueued) ∧
      breadthFirst next visit fuel queue enqueued state =
        (queue ++ found).foldl (fun state node => visit node state) state ∧
      (∀ node ∈ found, ∃ source ∈ queue, Reaches next source node) ∧
      ∀ node ∈ queue ++ found, ∀ successor ∈ next node,
        successor ∈ found ∨ successor ∈ enqueued := by
  induction fuel generalizing queue enqueued state with
  | zero =>
      obtain rfl : queue = [] := List.length_eq_zero_iff.mp (by omega)
      exact ⟨[], List.nodup_nil, by simp, rfl, by simp, by simp⟩
  | succ fuel ih =>
      cases queue with
      | nil => exact ⟨[], List.nodup_nil, by simp, rfl, by simp, by simp⟩
      | cons head queue =>
          obtain ⟨fresh, nodup, members, folded⟩ :=
            foldl_meet_silent (next head) queue enqueued (visit head state)
          have budget : fresh.length + (nodes.filter (· ∉ enqueued ++ fresh)).length ≤
              (nodes.filter (· ∉ enqueued)).length := by
            apply length_fresh_add nodup
            intro node member
            obtain ⟨successor, new⟩ := (members node).mp member
            exact ⟨inside head node successor, new⟩
          obtain ⟨found, foundNodup, apart, visited, sound, closed⟩ := ih (queue ++ fresh)
            (enqueued ++ fresh) (visit head state)
            (by simp only [List.length_cons, List.length_append] at enough ⊢; omega)
          refine ⟨fresh ++ found, ?_, ?_, ?_, ?_, ?_⟩
          · rw [List.nodup_append]
            refine ⟨nodup, foundNodup, ?_⟩
            rintro node isFresh _ isFound rfl
            exact apart node isFound (List.mem_append_right _ isFresh)
          · intro node member known
            rcases List.mem_append.mp member with isFresh | isFound
            · exact ((members node).mp isFresh).2 known
            · exact apart node isFound (List.mem_append_left _ known)
          · rw [breadthFirst, folded]
            simp only
            rw [visited, List.cons_append, List.foldl_cons, List.append_assoc]
          · intro node member
            rcases List.mem_append.mp member with isFresh | isFound
            · exact ⟨head, List.mem_cons_self, .single ((members node).mp isFresh).1⟩
            · obtain ⟨source, onQueue, path⟩ := sound node isFound
              rcases List.mem_append.mp onQueue with old | new
              · exact ⟨source, List.mem_cons_of_mem _ old, path⟩
              · exact ⟨head, List.mem_cons_self, .head ((members source).mp new).1 path⟩
          · intro node member successor link
            rw [List.cons_append, List.mem_cons] at member
            rw [List.mem_append]
            rcases member with rfl | member
            · by_cases old : successor ∈ enqueued
              · exact .inr old
              · exact .inl (.inl ((members successor).mpr ⟨link, old⟩))
            · rw [← List.append_assoc] at member
              rcases closed node member successor link with isFound | old
              · exact .inl (.inr isFound)
              · rcases List.mem_append.mp old with old | isFresh
                · exact .inr old
                · exact .inl (.inl isFresh)

/-- A walk visits what its sources reach: the sources in order, each other node once. -/
theorem breadthFirst_spec {nodes : List α}
    (inside : ∀ node, ∀ successor ∈ next node, successor ∈ nodes) (visit : α → σ → σ)
    (sources : List α) (state : σ) :
    ∃ found : List α, found.Nodup ∧ (∀ node ∈ found, node ∉ sources) ∧
      breadthFirst next visit (sources.length + nodes.length) sources sources state =
        (sources ++ found).foldl (fun state node => visit node state) state ∧
      ∀ node, node ∈ sources ++ found ↔ ∃ source ∈ sources, Reaches next source node := by
  have enough : sources.length + (nodes.filter (· ∉ sources)).length ≤
      sources.length + nodes.length := by
    have := List.length_filter_le (· ∉ sources) nodes
    omega
  obtain ⟨found, nodup, apart, visited, sound, closed⟩ :=
    breadthFirst_eq inside visit _ sources sources state enough
  refine ⟨found, nodup, apart, visited, fun node => ?_⟩
  constructor
  · intro member
    rcases List.mem_append.mp member with isSource | isFound
    · exact ⟨node, isSource, .refl⟩
    · exact sound node isFound
  · rintro ⟨source, isSource, path⟩
    induction path with
    | refl => exact List.mem_append_left _ isSource
    | tail _ link ih =>
        rw [List.mem_append, Or.comm]
        exact closed _ ih _ link

end Egregore.Base
