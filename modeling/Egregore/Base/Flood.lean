import Egregore.Base.Worklist
import Mathlib.Data.List.Perm.Subperm

/-!
# Floods

A queue-driven walk from several sources: each node that is popped meets its successors, and
those met for the first time join the queue. `pour_spec` says which meetings happen, with
enough fuel, whatever the order in which the nodes wait.
-/

namespace Egregore.Base

variable {α σ : Type*} [DecidableEq α]

/-- Meet a node: mark it, and enqueue it the first time. -/
def meet (mark : α → σ → σ) (step : List α × List α × σ) (node : α) : List α × List α × σ :=
  if node ∈ step.2.1 then (step.1, step.2.1, mark node step.2.2)
  else (step.1 ++ [node], step.2.1 ++ [node], mark node step.2.2)

/-- Pop a node and meet its successors. Returns the nodes ever enqueued and the final state. -/
def flood (next : α → List α) (mark : α → σ → σ) : Nat → List α → List α → σ → List α × σ
  | 0, _, enqueued, state => (enqueued, state)
  | _ + 1, [], enqueued, state => (enqueued, state)
  | fuel + 1, node :: queue, enqueued, state =>
      let step := (next node).foldl (meet mark) (queue, enqueued, state)
      flood next mark fuel step.1 step.2.1 step.2.2

theorem foldl_meet (mark : α → σ → σ) (nodes queue enqueued : List α) (state : σ) :
    ∃ fresh : List α, fresh.Nodup ∧ (∀ node, node ∈ fresh ↔ node ∈ nodes ∧ node ∉ enqueued) ∧
      nodes.foldl (meet mark) (queue, enqueued, state) =
        (queue ++ fresh, enqueued ++ fresh,
          nodes.foldl (fun state node => mark node state) state) := by
  induction nodes generalizing queue enqueued state with
  | nil => exact ⟨[], List.nodup_nil, by simp, by simp⟩
  | cons head nodes ih =>
      by_cases known : head ∈ enqueued
      · obtain ⟨fresh, nodup, members, folded⟩ := ih queue enqueued (mark head state)
        refine ⟨fresh, nodup, fun node => ?_, by simpa [meet, known] using folded⟩
        rw [members]
        by_cases same : node = head
        · simp [same, known]
        · simp [same]
      · obtain ⟨fresh, nodup, members, folded⟩ :=
          ih (queue ++ [head]) (enqueued ++ [head]) (mark head state)
        have new : head ∉ fresh := fun member => ((members head).mp member).2 (by simp)
        refine ⟨head :: fresh, List.nodup_cons.mpr ⟨new, nodup⟩, fun node => ?_, ?_⟩
        · rw [List.mem_cons, members]
          by_cases same : node = head
          · simp [same, known]
          · simp [same]
        · simpa [meet, known] using folded

variable {next : α → List α}

theorem length_fresh_add {nodes enqueued fresh : List α} (nodup : fresh.Nodup)
    (inside : ∀ node ∈ fresh, node ∈ nodes ∧ node ∉ enqueued) :
    fresh.length + (nodes.filter (· ∉ enqueued ++ fresh)).length ≤
      (nodes.filter (· ∉ enqueued)).length := by
  have found : fresh.length ≤ ((nodes.filter (· ∉ enqueued)).filter (· ∈ fresh)).length := by
    apply (nodup.subperm fun node member => ?_).length_le
    obtain ⟨known, new⟩ := inside node member
    simp [known, new, member]
  have rest : nodes.filter (· ∉ enqueued ++ fresh) =
      (nodes.filter (· ∉ enqueued)).filter fun node => !decide (node ∈ fresh) := by
    rw [List.filter_filter]
    apply List.filter_congr
    intro node _
    by_cases old : node ∈ enqueued <;> simp [old]
  have split := (nodes.filter (· ∉ enqueued)).length_eq_length_filter_add (· ∈ fresh)
  rw [rest]
  omega

/-- A walk in which the order of what waits is a parameter: a queue and a stack join the nodes met
for the first time in their own ways. -/
def pour (join : List α → List α → List α) (next : α → List α) (mark : α → σ → σ) :
    Nat → List α → List α → σ → List α × σ
  | 0, _, known, state => (known, state)
  | _ + 1, [], known, state => (known, state)
  | fuel + 1, node :: waiting, known, state =>
      let step := (next node).foldl (meet mark) ([], known, state)
      pour join next mark fuel (join waiting step.1) step.2.1 step.2.2

/-- The meetings of a walk: the successors of what waits in it. -/
theorem pour_spec {join : List α → List α → List α}
    (joined : ∀ waiting fresh, (join waiting fresh).Perm (waiting ++ fresh)) {nodes : List α}
    (inside : ∀ node, ∀ successor ∈ next node, successor ∈ nodes)
    (mark : α → σ → σ) (fuel : Nat) (waiting known : List α) (state : σ)
    (seen : ∀ node ∈ waiting, node ∈ known)
    (enough : waiting.length + (nodes.filter (· ∉ known)).length ≤ fuel) :
    ∃ popped : List α,
      (pour join next mark fuel waiting known state).2 =
        (popped.flatMap next).foldl (fun state node => mark node state) state ∧
      (∀ node ∈ popped, ∃ source ∈ waiting, Reaches next source node) ∧
      (∀ node ∈ waiting, node ∈ popped) ∧
      ∀ node ∈ popped, ∀ successor ∈ next node, successor ∈ popped ∨ successor ∈ known := by
  induction fuel generalizing waiting known state with
  | zero =>
      obtain rfl : waiting = [] := List.length_eq_zero_iff.mp (by omega)
      exact ⟨[], rfl, by simp, by simp, by simp⟩
  | succ fuel ih =>
      cases waiting with
      | nil => exact ⟨[], rfl, by simp, by simp, by simp⟩
      | cons head waiting =>
          obtain ⟨fresh, nodup, members, folded⟩ := foldl_meet mark (next head) [] known state
          rw [List.nil_append] at folded
          have arranged : ∀ node, node ∈ join waiting fresh ↔ node ∈ waiting ∨ node ∈ fresh :=
            fun node => (joined waiting fresh).mem_iff.trans List.mem_append
          have size := (joined waiting fresh).length_eq
          have budget : fresh.length + (nodes.filter (· ∉ known ++ fresh)).length ≤
              (nodes.filter (· ∉ known)).length :=
            length_fresh_add nodup fun node member =>
              ⟨inside head node ((members node).mp member).1, ((members node).mp member).2⟩
          obtain ⟨popped, marked, sound, covers, closed⟩ := ih (join waiting fresh)
            (known ++ fresh) ((next head).foldl (fun state node => mark node state) state)
            (fun node member => by
              rcases (arranged node).mp member with old | new
              · exact List.mem_append_left _ (seen node (List.mem_cons_of_mem _ old))
              · exact List.mem_append_right _ new)
            (by simp only [List.length_cons, List.length_append] at enough size ⊢; omega)
          refine ⟨head :: popped, ?_, ?_, ?_, ?_⟩
          · rw [pour, folded]
            simpa using marked
          · intro node member
            rcases List.mem_cons.mp member with rfl | member
            · exact ⟨node, by simp, .refl⟩
            · obtain ⟨source, waits, path⟩ := sound node member
              rcases (arranged source).mp waits with old | new
              · exact ⟨source, List.mem_cons_of_mem _ old, path⟩
              · exact ⟨head, by simp, .head ((members source).mp new).1 path⟩
          · intro node member
            rcases List.mem_cons.mp member with rfl | member
            · exact List.mem_cons_self
            · exact List.mem_cons_of_mem _ (covers node ((arranged node).mpr (.inl member)))
          · intro node member successor edge
            have settled : successor ∈ popped ∨ successor ∈ known ++ fresh := by
              rcases List.mem_cons.mp member with rfl | member
              · by_cases old : successor ∈ known
                · exact .inr (List.mem_append_left _ old)
                · exact .inr (List.mem_append_right _ ((members successor).mpr ⟨edge, old⟩))
              · exact closed node member successor edge
            rcases settled with done | waits
            · exact .inl (List.mem_cons_of_mem _ done)
            · rcases List.mem_append.mp waits with old | new
              · exact .inr old
              · exact .inl (List.mem_cons_of_mem _ (covers _ ((arranged _).mpr (.inr new))))

/-- A walk from its sources meets what they reach in one step or more. -/
theorem exists_meetings_pour {join : List α → List α → List α}
    (joined : ∀ waiting fresh, (join waiting fresh).Perm (waiting ++ fresh)) {nodes : List α}
    (inside : ∀ node, ∀ successor ∈ next node, successor ∈ nodes) (mark : α → σ → σ)
    (sources : List α) (state : σ) :
    ∃ met : List α,
      (pour join next mark (sources.length + nodes.length) sources sources state).2 =
        met.foldl (fun state node => mark node state) state ∧
      ∀ node, node ∈ met ↔ ∃ source ∈ sources, ∃ last, Reaches next source last ∧
        node ∈ next last := by
  have enough : sources.length + (nodes.filter (· ∉ sources)).length ≤
      sources.length + nodes.length := by
    have := List.length_filter_le (· ∉ sources) nodes
    omega
  obtain ⟨popped, marked, sound, covers, closed⟩ := pour_spec joined inside mark _ sources sources
    state (fun _ member => member) enough
  refine ⟨popped.flatMap next, marked, fun node => ?_⟩
  rw [List.mem_flatMap]
  constructor
  · rintro ⟨last, member, edge⟩
    obtain ⟨source, isSource, path⟩ := sound last member
    exact ⟨source, isSource, last, path, edge⟩
  · rintro ⟨source, isSource, last, path, edge⟩
    refine ⟨last, ?_, edge⟩
    clear edge
    induction path with
    | refl => exact covers source isSource
    | tail _ step ih =>
        rcases closed _ ih _ step with done | isSource
        · exact done
        · exact covers _ isSource

/-- A flood is the walk whose fresh nodes join at the end. -/
theorem flood_eq_pour (mark : α → σ → σ) (fuel : Nat) (queue enqueued : List α) (state : σ) :
    flood next mark fuel queue enqueued state =
      pour (· ++ ·) next mark fuel queue enqueued state := by
  induction fuel generalizing queue enqueued state with
  | zero => rfl
  | succ fuel ih =>
      cases queue with
      | nil => rfl
      | cons head queue =>
          -- What is fresh does not depend on the queue it joins.
          have apart : ∀ (nodes queue enqueued : List α) (state : σ),
              nodes.foldl (meet mark) (queue, enqueued, state) =
                (queue ++ (nodes.foldl (meet mark) ([], enqueued, state)).1,
                  (nodes.foldl (meet mark) ([], enqueued, state)).2) := by
            intro nodes
            induction nodes with
            | nil => simp
            | cons node nodes inner =>
                intro queue enqueued state
                simp only [List.foldl_cons, meet]
                split
                · exact inner queue enqueued _
                · rw [inner (queue ++ [node]), inner ([] ++ [node])]
                  simp
          rw [flood, pour, apart, ih]

/-- A flood from its sources meets what they reach in one step or more. -/
theorem exists_meetings {nodes : List α}
    (inside : ∀ node, ∀ successor ∈ next node, successor ∈ nodes) (mark : α → σ → σ)
    (sources : List α) (state : σ) :
    ∃ met : List α,
      (flood next mark (sources.length + nodes.length) sources sources state).2 =
        met.foldl (fun state node => mark node state) state ∧
      ∀ node, node ∈ met ↔ ∃ source ∈ sources, ∃ last, Reaches next source last ∧
        node ∈ next last := by
  rw [flood_eq_pour]
  exact exists_meetings_pour (fun _ _ => List.Perm.refl _) inside mark sources state

end Egregore.Base
