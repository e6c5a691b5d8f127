import Egregore.Base.ElementaryCycles
import Egregore.Query.Cycles
import Mathlib.Logic.Relation

/-!
# The cycles that are listed

The blocked search finds what plain backtracking finds: a vertex stays blocked only
while every path from it to the root meets the stack, and nothing on the stack is
ever unblocked. `enumerateElementaryCycles_spec` follows for every graph with
increasing adjacency lists: the cycles in the order of backtracking, up to the cap,
with a flag when there are more.
-/

namespace Egregore

open Base

namespace CycleSearch

/-- `u` is unblocked along with `v`. -/
def Waits (search : CycleSearch) : Nat → Nat → Prop :=
  Relation.ReflTransGen fun z y => y ∈ search.blockMap z

section Unblock

/-- What unblocking some vertices does: with them go exactly those that wait for them. -/
structure Freed (before after : CycleSearch) (sources : List Nat) : Prop where
  same : after = { before with blocked := after.blocked, blockMap := after.blockMap }
  blocked : ∀ u, after.blocked u = true → before.blocked u = true
  unblocked : ∀ u ∈ sources, after.blocked u = false
  kept : ∀ z, after.blocked z = true → after.blockMap z = before.blockMap z
  cleared : ∀ z, after.blocked z = false → after.blockMap z = ∅
  waited : ∀ u, before.blocked u = true → after.blocked u = false →
    ∃ v ∈ sources, Waits before v u
  spread : ∀ u, before.blocked u = true → after.blocked u = false →
    ∀ y ∈ before.blockMap u, after.blocked y = false

/-- Nothing waits for a vertex that is not blocked. -/
def Settled (search : CycleSearch) : Prop :=
  ∀ z, search.blocked z = false → search.blockMap z = ∅

variable {before middle after : CycleSearch} {sources others : List Nat}

/-- While a vertex is waited for, it stays blocked. -/
theorem blocked_of_mem_blockMap (settled : before.Settled) {y z : Nat}
    (waits : y ∈ before.blockMap z) : before.blocked z = true := by
  by_contra free
  rw [settled z (by simpa using free)] at waits
  simp at waits

/-- More entries in the map keep a chain of waiting vertices. -/
theorem Waits.mono {first second : CycleSearch}
    (subset : ∀ z y, y ∈ first.blockMap z → y ∈ second.blockMap z) {v u : Nat}
    (waits : Waits first v u) : Waits second v u :=
  Relation.ReflTransGen.mono subset _ _ waits

/-- Freeing vertices adds no waiting one. -/
theorem Freed.subset (freed : Freed before after sources) {y z : Nat}
    (waits : y ∈ after.blockMap z) : y ∈ before.blockMap z := by
  have blocked := blocked_of_mem_blockMap freed.cleared waits
  rwa [freed.kept z blocked] at waits

/-- Free vertices have nothing to free. -/
theorem Freed.refl (settled : before.Settled) (free : ∀ u ∈ sources, before.blocked u = false) :
    Freed before before sources where
  same := rfl
  blocked _ blocked := blocked
  unblocked := free
  kept _ _ := rfl
  cleared := settled
  waited u blocked free := by simp [blocked] at free
  spread u blocked free := by simp [blocked] at free

/-- Freeing some vertices and then others frees both. -/
theorem Freed.append (first : Freed before middle sources) (second : Freed middle after others) :
    Freed before after (sources ++ others) where
  same := by rw [second.same, first.same]
  blocked u blocked := first.blocked u (second.blocked u blocked)
  unblocked u member := by
    rcases List.mem_append.mp member with early | late
    · by_contra blocked
      have := second.blocked u (by simpa using blocked)
      rw [first.unblocked u early] at this
      contradiction
    · exact second.unblocked u late
  kept z blocked := by rw [second.kept z blocked, first.kept z (second.blocked z blocked)]
  cleared := second.cleared
  waited u blocked free := by
    cases half : middle.blocked u with
    | false =>
        obtain ⟨v, member, waits⟩ := first.waited u blocked half
        exact ⟨v, List.mem_append_left _ member, waits⟩
    | true =>
        obtain ⟨v, member, waits⟩ := second.waited u half free
        exact ⟨v, List.mem_append_right _ member, waits.mono fun _ _ => first.subset⟩
  spread u blocked free y waits := by
    cases half : middle.blocked u with
    | false =>
        by_contra still
        have := second.blocked y (by simpa using still)
        rw [first.spread u blocked half y waits] at this
        contradiction
    | true =>
        rw [← first.kept u half] at waits
        exact second.spread u half free y waits

/-- The state in which the vertices that waited for `v` are unblocked. -/
def released (search : CycleSearch) (v : Nat) : CycleSearch :=
  { search with
    blocked := Function.update search.blocked v false
    blockMap := Function.update search.blockMap v ∅ }

/-- A released vertex is free. -/
@[simp] theorem released_blocked_self (search : CycleSearch) (v : Nat) :
    (search.released v).blocked v = false :=
  Function.update_self _ _ _

/-- Nobody waits for a released vertex any more. -/
@[simp] theorem released_blockMap_self (search : CycleSearch) (v : Nat) :
    (search.released v).blockMap v = ∅ :=
  Function.update_self _ _ _

/-- Releasing a vertex frees no other. -/
theorem released_blocked_of_ne {search : CycleSearch} {u v : Nat} (different : u ≠ v) :
    (search.released v).blocked u = search.blocked u :=
  Function.update_of_ne different _ _

/-- It leaves those that wait for another. -/
theorem released_blockMap_of_ne {search : CycleSearch} {u v : Nat} (different : u ≠ v) :
    (search.released v).blockMap u = search.blockMap u :=
  Function.update_of_ne different _ _

/-- Releasing a vertex keeps the map settled. -/
theorem Settled.released (settled : before.Settled) (v : Nat) : (before.released v).Settled := by
  intro z free
  by_cases same : z = v
  · subst same
    exact released_blockMap_self _ _
  · rw [released_blocked_of_ne same] at free
    rw [released_blockMap_of_ne same]
    exact settled z free

/-- A vertex is freed by releasing it, and then freeing those that waited for it. -/
theorem Freed.of_released {v : Nat} (blocked : before.blocked v = true)
    (freed : Freed (before.released v) after (before.blockMap v).toList) :
    Freed before after [v] := by
  have other : ∀ {u}, (before.released v).blocked u = true →
      u ≠ v ∧ before.blocked u = true := by
    intro u held
    by_cases same : u = v
    · simp [same] at held
    · rw [released_blocked_of_ne same] at held
      exact ⟨same, held⟩
  have unheld : after.blocked v = false := by
    by_contra held
    exact (other (freed.blocked v (by simpa using held))).1 rfl
  have subset : ∀ z y, y ∈ (before.released v).blockMap z → y ∈ before.blockMap z := by
    intro z y waits
    by_cases same : z = v
    · simp [same] at waits
    · rwa [released_blockMap_of_ne same] at waits
  refine
    { same := by rw [freed.same]; rfl
      blocked := fun u held => (other (freed.blocked u held)).2
      unblocked := fun u member => by rwa [List.mem_singleton.mp member]
      kept := fun z held => by
        rw [freed.kept z held, released_blockMap_of_ne (other (freed.blocked z held)).1]
      cleared := freed.cleared
      waited := fun u held free => ⟨v, List.mem_singleton_self v, ?_⟩
      spread := fun u held free y waits => ?_ }
  · by_cases same : u = v
    · rw [same]
      exact Relation.ReflTransGen.refl
    · obtain ⟨w, member, waits⟩ := freed.waited u
        (by rwa [released_blocked_of_ne same]) free
      have first : w ∈ before.blockMap v := by simpa using member
      exact Relation.ReflTransGen.head first (waits.mono subset)
  · by_cases same : u = v
    · subst same
      exact freed.unblocked y (by simpa using waits)
    · rw [← released_blockMap_of_ne same] at waits
      exact freed.spread u (by rwa [released_blocked_of_ne same]) free y waits

/-- The blocked vertices below a bound. -/
def held (search : CycleSearch) (bound : Nat) : Finset Nat :=
  (Finset.range bound).filter fun u => search.blocked u = true

/-- Fewer blocked vertices are fewer held ones. -/
theorem held_mono {bound : Nat} (fewer : ∀ u, after.blocked u = true → before.blocked u = true) :
    (after.held bound).card ≤ (before.held bound).card := by
  apply Finset.card_le_card
  intro u member
  rw [held, Finset.mem_filter] at member ⊢
  exact ⟨member.1, fewer u member.2⟩

/-- There are at most as many held vertices as there are vertices. -/
theorem held_lt (search : CycleSearch) (bound : Nat) : (search.held bound).card < bound + 1 := by
  have := Finset.card_filter_le (Finset.range bound) fun u => search.blocked u = true
  rw [Finset.card_range] at this
  exact Nat.lt_succ_of_le this

/-- Each release leaves fewer, which bounds the recursion. -/
theorem held_released {bound v : Nat} (blocked : before.blocked v = true) (within : v < bound) :
    ((before.released v).held bound).card < (before.held bound).card := by
  apply Finset.card_lt_card
  rw [Finset.ssubset_iff_of_subset]
  · refine ⟨v, ?_, ?_⟩
    · rw [held, Finset.mem_filter, Finset.mem_range]
      exact ⟨within, blocked⟩
    · simp [held]
  · intro u member
    rw [held, Finset.mem_filter] at member ⊢
    refine ⟨member.1, ?_⟩
    by_cases same : u = v
    · rwa [same]
    · rw [← released_blocked_of_ne same]
      exact member.2

/-- Unblocking ends, and frees what waits. -/
theorem unblock_spec {bound : Nat} (fuel : Nat) (before : CycleSearch) (v : Nat)
    (settled : before.Settled) (bounded : ∀ u, before.blocked u = true → u < bound)
    (enough : (before.held bound).card < fuel) :
    ∃ after, unblock fuel before v = some after ∧ Freed before after [v] := by
  induction fuel generalizing before v with
  | zero => omega
  | succ fuel ih =>
      rw [unblock]
      split
      · next blocked =>
          -- One vertex less is blocked; the others are freed one after the other.
          have rounds : ∀ (ws : List Nat) (search : CycleSearch), search.Settled →
              (∀ u, search.blocked u = true → u < bound) → (search.held bound).card < fuel →
              ∃ after, ws.foldlM (fun search w => unblock fuel search w) search = some after ∧
                Freed search after ws := by
            intro ws
            induction ws with
            | nil =>
                intro search settled _ _
                exact ⟨search, rfl, Freed.refl settled (by simp)⟩
            | cons w ws ihWs =>
                intro search settled bounded enough
                obtain ⟨middle, runs, freed⟩ := ih search w settled bounded enough
                obtain ⟨after, runs', freed'⟩ := ihWs middle freed.cleared
                  (fun u held => bounded u (freed.blocked u held))
                  (lt_of_le_of_lt (held_mono freed.blocked) enough)
                refine ⟨after, ?_, freed.append freed'⟩
                rw [List.foldlM_cons, runs]
                exact runs'
          have fewer := held_released blocked (bounded v blocked)
          have within : ∀ u, (before.released v).blocked u = true → u < bound := by
            intro u held
            by_cases same : u = v
            · rw [same]
              exact bounded v blocked
            · rw [released_blocked_of_ne same] at held
              exact bounded u held
          obtain ⟨after, runs, freed⟩ := rounds (before.blockMap v).toList (before.released v)
            (settled.released v) within (by omega)
          exact ⟨after, runs, freed.of_released blocked⟩
      · next free =>
          exact ⟨before, rfl, Freed.refl settled (by simpa using free)⟩

end Unblock

variable (adj : List (List Nat)) (root : Nat)

/-- The successors of a vertex. -/
def successors (v : Nat) : List Nat := adj.getD v []

/-- What holds of the search between two steps. A blocked vertex that has left the stack waits for
each of its successors, and nothing below a vertex of the stack waits for that vertex. -/
structure Inv (search : CycleSearch) : Prop where
  settled : search.Settled
  bounded : ∀ u, search.blocked u = true → u < adj.length
  onStack : ∀ v ∈ search.stack, search.blocked v = true
  held : ∀ y, search.blocked y = true → y ∉ search.stack → ∀ z ∈ successors adj y, root ≤ z →
    z ≠ root ∧ y ∈ search.blockMap z
  apart : search.stack.Pairwise fun lower upper => ¬ Waits search upper lower

variable {adj root} {search before middle after : CycleSearch}

/-- The invariant looks at the blocked vertices, the map and the stack only. -/
theorem Inv.congr (inv : Inv adj root before) (blocked : after.blocked = before.blocked)
    (blockMap : after.blockMap = before.blockMap) (stack : after.stack = before.stack) :
    Inv adj root after := by
  obtain ⟨settled, bounded, onStack, held, apart⟩ := inv
  constructor
  · rwa [Settled, blocked, blockMap]
  · rwa [blocked]
  · rwa [stack, blocked]
  · rwa [stack, blocked, blockMap]
  · rw [stack]
    refine apart.imp fun {lower upper} unwaited waits => unwaited (waits.mono fun z y => ?_)
    rw [blockMap]
    exact id

/-- A vertex that is blocked off the stack has no way to the root around the stack. -/
theorem Inv.closings_eq_nil (inv : Inv adj root search) (fuel : Nat) {path : List Nat} {y : Nat}
    (covered : ∀ u ∈ search.stack, u ∈ path) (blocked : search.blocked y = true)
    (off : y ∉ search.stack) : closings (successors adj) root fuel path y = [] := by
  induction fuel generalizing path y with
  | zero => rfl
  | succ fuel ih =>
      rw [closings, List.flatMap_eq_nil_iff]
      intro w edge
      split_ifs with below isRoot onPath
      · rfl
      · exact absurd isRoot (inv.held y blocked off w edge (not_lt.mp below)).1
      · rfl
      · have waits := (inv.held y blocked off w edge (not_lt.mp below)).2
        refine ih (fun u member => List.mem_append_left _ (covered u member))
          (blocked_of_mem_blockMap inv.settled waits) fun member => onPath (covered w member)

section Enter

variable {v : Nat}

/-- Entering a vertex blocks no other. -/
theorem enter_blocked_of_ne {u : Nat} (different : u ≠ v) :
    (search.enter v).blocked u = search.blocked u :=
  Function.update_of_ne different _ _

/-- Entering a vertex blocks it. -/
@[simp] theorem enter_blocked_self : (search.enter v).blocked v = true :=
  Function.update_self _ _ _

/-- Entering a vertex frees none. -/
theorem enter_blocked {u : Nat} (blocked : search.blocked u = true) :
    (search.enter v).blocked u = true := by
  by_cases same : u = v
  · rw [same, enter_blocked_self]
  · rwa [enter_blocked_of_ne same]

/-- So entering a free vertex keeps the invariant. -/
theorem Inv.enter (inv : Inv adj root search) (free : search.blocked v = false)
    (vertex : v < adj.length) : Inv adj root (search.enter v) where
  settled z unblocked := by
    have different : z ≠ v := by
      rintro rfl
      simp at unblocked
    rw [enter_blocked_of_ne different] at unblocked
    exact inv.settled z unblocked
  bounded u blocked := by
    by_cases same : u = v
    · rwa [same]
    · rw [enter_blocked_of_ne same] at blocked
      exact inv.bounded u blocked
  onStack u member := by
    rcases List.mem_append.mp member with earlier | new
    · exact enter_blocked (inv.onStack u earlier)
    · rw [List.mem_singleton.mp new, enter_blocked_self]
  held y blocked off := by
    have different : y ≠ v := by
      rintro rfl
      exact off (List.mem_append_right _ (List.mem_singleton_self y))
    rw [enter_blocked_of_ne different] at blocked
    exact inv.held y blocked fun member => off (List.mem_append_left _ member)
  apart := by
    refine List.pairwise_append.mpr ⟨inv.apart, List.pairwise_singleton _ _, ?_⟩
    intro lower member upper isLast waits
    -- Nothing waits for `v` when it enters.
    rw [List.mem_singleton.mp isLast] at waits
    rcases Relation.ReflTransGen.cases_head waits with same | ⟨y, first, -⟩
    · rw [← same] at member
      rw [inv.onStack v member] at free
      contradiction
    · have nobody : (search.enter v).blockMap v = ∅ := inv.settled v free
      simp [nobody] at first

end Enter

section Exit

variable {v : Nat} {stack : List Nat}

/-- A vertex that found no cycle waits for its successors from the root on. -/
theorem mem_await {y z : Nat} :
    y ∈ (search.await adj root v).blockMap z ↔
      y ∈ search.blockMap z ∨ y = v ∧ z ∈ successors adj v ∧ root ≤ z := by
  rw [await, successors]
  generalize search.blockMap = blockMap
  induction adj.getD v [] generalizing blockMap with
  | nil => simp
  | cons w rest ih =>
      rw [List.foldl_cons, ih, List.mem_cons]
      by_cases above : root ≤ w
      · rw [if_pos above]
        by_cases same : z = w
        · subst same
          rw [Function.update_self, Std.ExtTreeSet.mem_insert, compare_eq_iff_eq]
          constructor
          · rintro ((rfl | member) | ⟨rfl, member, _⟩)
            · exact Or.inr ⟨rfl, Or.inl rfl, above⟩
            · exact Or.inl member
            · exact Or.inr ⟨rfl, Or.inr member, above⟩
          · rintro (member | ⟨rfl, -, -⟩)
            · exact Or.inl (Or.inr member)
            · exact Or.inl (Or.inl rfl)
        · simp [same]
      · rw [if_neg above]
        constructor
        · rintro (member | ⟨rfl, member, le⟩)
          · exact Or.inl member
          · exact Or.inr ⟨rfl, Or.inr member, le⟩
        · rintro (member | ⟨rfl, rfl | member, le⟩)
          · exact Or.inl member
          · exact absurd le above
          · exact Or.inr ⟨rfl, member, le⟩

/-- A vertex that found nothing leaves the stack and waits. -/
theorem Inv.await (inv : Inv adj root search) (isStack : search.stack = stack ++ [v])
    (closed : ∀ w ∈ successors adj v, root ≤ w → w ≠ root ∧ search.blocked w = true) :
    Inv adj root (search.await adj root v).leave where
  settled z unblocked := by
    have free : search.blocked z = false := unblocked
    ext y
    have nobody := inv.settled z free
    rw [leave, mem_await, nobody]
    simp only [Std.ExtTreeSet.not_mem_empty, false_or, iff_false, not_and]
    rintro rfl edge above
    rw [(closed z edge above).2] at free
    contradiction
  bounded := inv.bounded
  onStack u member := inv.onStack u (List.mem_of_mem_dropLast member)
  held y blocked off z edge above := by
    rw [leave, mem_await]
    have stack_ : (search.await adj root v).leave.stack = stack := by
      simp [leave, CycleSearch.await, isStack]
    rw [stack_] at off
    by_cases same : y = v
    · subst same
      exact ⟨(closed z edge above).1, Or.inr ⟨rfl, edge, above⟩⟩
    · obtain ⟨other, waits⟩ := inv.held y blocked (by simp [isStack, off, same]) z edge above
      exact ⟨other, Or.inl waits⟩
  apart := by
    have stack_ : (search.await adj root v).leave.stack = stack := by
      simp [leave, CycleSearch.await, isStack]
    have apart := inv.apart
    rw [isStack, List.pairwise_append] at apart
    -- What newly waits, waits for the sake of `v`, and nothing on the stack waited for `v`.
    have split : ∀ {upper lower}, Waits (search.await adj root v).leave upper lower →
        Waits search upper lower ∨ Waits search v lower := by
      intro upper lower waits
      induction waits using Relation.ReflTransGen.head_induction_on with
      | refl => exact Or.inl Relation.ReflTransGen.refl
      | head first _ ih =>
          rcases ih with waits | waits
          · rcases mem_await.mp first with old | ⟨rfl, -⟩
            · exact Or.inl (Relation.ReflTransGen.head old waits)
            · exact Or.inr waits
          · exact Or.inr waits
    rw [stack_]
    refine (List.Pairwise.and_mem.mp apart.1).imp ?_
    rintro lower upper ⟨member, -, unwaited⟩ waits
    rcases split waits with waits | waits
    · exact unwaited waits
    · exact apart.2.2 lower member v (List.mem_singleton_self v) waits

/-- A vertex that found a cycle leaves the stack and is unblocked, with what waits for it. -/
theorem Inv.freed (inv : Inv adj root search) (isStack : search.stack = stack ++ [v])
    (freed : Freed search after [v]) : Inv adj root after.leave where
  settled := freed.cleared
  bounded u blocked := inv.bounded u (freed.blocked u blocked)
  onStack u member := by
    have stack_ : after.leave.stack = stack := by
      rw [leave, freed.same]
      simp [isStack]
    rw [stack_] at member
    by_contra unblocked
    have apart := inv.apart
    rw [isStack, List.pairwise_append] at apart
    obtain ⟨w, isV, waits⟩ := freed.waited u
      (inv.onStack u (by rw [isStack]; exact List.mem_append_left _ member))
      (by simpa [leave] using unblocked)
    exact apart.2.2 u member w isV waits
  held y blocked off z edge above := by
    have stack_ : after.leave.stack = stack := by
      rw [leave, freed.same]
      simp [isStack]
    rw [stack_] at off
    have different : y ≠ v := by
      rintro rfl
      have := freed.unblocked y (List.mem_singleton_self y)
      rw [leave] at blocked
      rw [blocked] at this
      contradiction
    obtain ⟨other, waits⟩ := inv.held y (freed.blocked y blocked)
      (by simp [isStack, off, different]) z edge above
    refine ⟨other, ?_⟩
    cases still : after.blocked z with
    | true =>
        rw [leave, freed.kept z still]
        exact waits
    | false =>
        have unblocked := freed.spread z (blocked_of_mem_blockMap inv.settled waits) still y waits
        rw [leave] at blocked
        rw [blocked] at unblocked
        contradiction
  apart := by
    have stack_ : after.leave.stack = stack := by
      rw [leave, freed.same]
      simp [isStack]
    have apart := inv.apart
    rw [isStack, List.pairwise_append] at apart
    rw [stack_]
    exact apart.1.imp fun unwaited waits => unwaited (waits.mono fun _ _ => freed.subset)

end Exit

section Explore

variable {cycles more : List (List Nat)} {found closed : Bool}

/-- What a part of the search does, if `cycles` are the cycles it comes across: it takes as many as
the cap allows, and is truncated if there are more. -/
structure Explored (adj : List (List Nat)) (root : Nat) (before after : CycleSearch)
    (cycles : List (List Nat)) (found : Bool) : Prop where
  inv : Inv adj root after
  stack : after.stack = before.stack
  foundCycles : after.foundCycles = before.foundCycles ++ cycles.take before.remaining
  remaining : after.remaining = before.remaining - cycles.length
  truncated : after.truncated = decide (before.remaining < cycles.length)
  reports : found = !cycles.isEmpty
  grown : found = false → ∀ u, before.blocked u = true → after.blocked u = true

/-- A search that did nothing explored nothing. -/
theorem Explored.refl (inv : Inv adj root search) (quiet : search.truncated = false) :
    Explored adj root search search [] false where
  inv := inv
  stack := rfl
  foundCycles := by simp
  remaining := rfl
  truncated := by simpa using quiet
  reports := rfl
  grown _ _ blocked := blocked

/-- Searches one after the other explore the cycles of both, in order. -/
theorem Explored.append (first : Explored adj root before middle cycles found)
    (quiet : middle.truncated = false) (second : Explored adj root middle after more closed) :
    Explored adj root before after (cycles ++ more) (found || closed) where
  inv := second.inv
  stack := by rw [second.stack, first.stack]
  foundCycles := by
    rw [first.truncated, decide_eq_false_iff_not, not_lt] at quiet
    rw [second.foundCycles, first.foundCycles, first.remaining, List.append_assoc, List.take_append]
  remaining := by
    rw [second.remaining, first.remaining, List.length_append]
    omega
  truncated := by
    rw [first.truncated, decide_eq_false_iff_not, not_lt] at quiet
    rw [second.truncated, first.remaining, List.length_append, decide_eq_decide]
    omega
  reports := by
    rw [first.reports, second.reports]
    cases cycles <;> simp
  grown none u blocked := by
    rw [Bool.or_eq_false_iff] at none
    exact second.grown none.2 u (first.grown none.1 u blocked)

/-- A truncated search ignores what is left. -/
theorem Explored.skip (explored : Explored adj root before after cycles found)
    (full : after.truncated = true) : Explored adj root before after (cycles ++ more) found where
  inv := explored.inv
  stack := explored.stack
  foundCycles := by
    rw [explored.truncated, decide_eq_true_iff] at full
    rw [explored.foundCycles, List.take_append_of_le_length full.le]
  remaining := by
    rw [explored.truncated, decide_eq_true_iff] at full
    rw [explored.remaining, List.length_append]
    omega
  truncated := by
    rw [explored.truncated, decide_eq_decide, List.length_append]
    rw [explored.truncated, decide_eq_true_iff] at full
    omega
  reports := by
    rw [explored.truncated, decide_eq_true_iff] at full
    rw [explored.reports]
    cases cycles with
    | nil => simp at full
    | cons cycle cycles => rfl
  grown := explored.grown

/-- A search that was cut off had found a cycle. -/
theorem Explored.found_of_truncated (explored : Explored adj root before after cycles found)
    (full : after.truncated = true) : found = true := by
  rw [explored.truncated, decide_eq_true_iff] at full
  rw [explored.reports]
  cases cycles with
  | nil => simp at full
  | cons cycle cycles => rfl

/-- Closing a cycle takes it, or truncates the search. -/
theorem Explored.close (inv : Inv adj root search) (quiet : search.truncated = false) :
    Explored adj root search search.close [search.stack] true := by
  rw [CycleSearch.close]
  split
  · next room =>
      refine
        { inv := inv.congr rfl rfl rfl
          stack := rfl
          foundCycles := ?_
          remaining := rfl
          truncated := ?_
          reports := rfl
          grown := by simp }
      · rw [List.take_of_length_le (by rw [List.length_singleton]; omega)]
      · rw [quiet, List.length_singleton]
        exact (decide_eq_false (by omega)).symm
  · next full =>
      have none : search.remaining = 0 := by omega
      exact
        { inv := inv.congr rfl rfl rfl
          stack := rfl
          foundCycles := by simp [none]
          remaining := by simp [none]
          truncated := by simp [none]
          reports := rfl
          grown := by simp }

/-- What plain backtracking contributes for one successor. -/
def extensions (adj : List (List Nat)) (root fuel : Nat) (path : List Nat) (w : Nat) :
    List (List Nat) :=
  if w < root then []
  else if w = root then [path]
  else if w ∈ path then []
  else closings (successors adj) root fuel (path ++ [w]) w

section

variable {fuel : Nat} {path : List Nat} {w : Nat}

/-- A path is not extended below the root. -/
theorem extensions_of_lt (below : w < root) : extensions adj root fuel path w = [] :=
  if_pos below

/-- Back at the root, it is a cycle. -/
@[simp] theorem extensions_root : extensions adj root fuel path root = [path] := by
  rw [extensions, if_neg (lt_irrefl root), if_pos rfl]

/-- At a vertex of its own it goes no further. -/
theorem extensions_of_mem (other : w ≠ root) (onPath : w ∈ path) :
    extensions adj root fuel path w = [] := by
  rw [extensions, if_neg other, if_pos onPath, ite_self]

/-- At any other vertex it goes on over the successors. -/
theorem extensions_of_not_mem (above : ¬ w < root) (other : w ≠ root) (fresh : w ∉ path) :
    extensions adj root fuel path w = closings (successors adj) root fuel (path ++ [w]) w := by
  rw [extensions, if_neg above, if_neg other, if_neg fresh]

end

/-- The statement about a call of `circuit` with the given fuel. -/
def Sound (adj : List (List Nat)) (root fuel : Nat) : Prop :=
  ∀ (search : CycleSearch) (v : Nat), Inv adj root search → search.truncated = false →
    search.blocked v = false → v < adj.length → adj.length < fuel + search.stack.length →
    ∃ after found, circuit adj root fuel search v = some (after, found) ∧
      Explored adj root search after
        (closings (successors adj) root fuel (search.stack ++ [v]) v) found ∧
      (found = false → after.blocked v = true)

variable {fuel : Nat} {start : CycleSearch}

/-- One turn of the loop over the successors. -/
theorem visit_spec (sound : Sound adj root fuel)
    (bounded : ∀ v, ∀ w ∈ successors adj v, w < adj.length) {v w : Nat} (edge : w ∈ successors adj v)
    (explored : Explored adj root start search cycles found)
    (enough : adj.length < fuel + start.stack.length) :
    ∃ after closed, visit root (circuit adj root fuel) (search, found) w = some (after, closed) ∧
      Explored adj root start after (cycles ++ extensions adj root fuel start.stack w) closed ∧
      (closed = false → found = false ∧ (root ≤ w → w ≠ root ∧ after.blocked w = true) ∧
        ∀ u, search.blocked u = true → after.blocked u = true) := by
  cases quiet : search.truncated with
  | true =>
      refine ⟨search, found, by simp [visit, quiet], explored.skip quiet, fun none => ?_⟩
      rw [explored.found_of_truncated quiet] at none
      contradiction
  | false =>
      have idle := explored.append quiet (Explored.refl explored.inv quiet)
      rw [Bool.or_false] at idle
      by_cases below : w < root
      · rw [extensions_of_lt below]
        exact ⟨search, found, by simp [visit, below], idle,
          fun none => ⟨none, fun above => absurd below (not_lt.mpr above), fun _ => id⟩⟩
      by_cases isRoot : w = root
      · have taken := explored.append quiet (Explored.close explored.inv quiet)
        rw [explored.stack, Bool.or_true] at taken
        rw [isRoot, extensions_root]
        exact ⟨search.close, true, by simp [visit, quiet], taken, by simp⟩
      cases blocked : search.blocked w with
      | true =>
          refine ⟨search, found, by simp [visit, quiet, below, isRoot, blocked], ?_,
            fun none => ⟨none, fun _ => ⟨isRoot, blocked⟩, fun _ => id⟩⟩
          by_cases onPath : w ∈ start.stack
          · rw [extensions_of_mem isRoot onPath]
            exact idle
          · have covered : ∀ u ∈ search.stack, u ∈ start.stack ++ [w] := by
              intro u member
              rw [explored.stack] at member
              exact List.mem_append_left _ member
            rw [extensions_of_not_mem below isRoot onPath,
              explored.inv.closings_eq_nil fuel covered blocked (by rwa [explored.stack])]
            exact idle
      | false =>
          have off : w ∉ start.stack := by
            intro member
            rw [← explored.stack] at member
            rw [explored.inv.onStack w member] at blocked
            contradiction
          obtain ⟨after, closed, runs, visited, stays⟩ := sound search w explored.inv quiet
            blocked (bounded v w edge) (by rwa [explored.stack])
          rw [explored.stack] at visited
          rw [extensions_of_not_mem below isRoot off]
          refine ⟨after, found || closed, by simp [visit, quiet, below, isRoot, blocked, runs],
            explored.append quiet visited, fun none => ?_⟩
          rw [Bool.or_eq_false_iff] at none
          exact ⟨none.1, fun _ => ⟨isRoot, stays none.2⟩, visited.grown none.2⟩

/-- The loop over the successors. -/
theorem visits_spec (sound : Sound adj root fuel)
    (bounded : ∀ v, ∀ w ∈ successors adj v, w < adj.length) {v : Nat} (ws : List Nat)
    (edges : ∀ w ∈ ws, w ∈ successors adj v)
    (explored : Explored adj root start search cycles found)
    (enough : adj.length < fuel + start.stack.length) :
    ∃ after closed,
      ws.foldlM (visit root (circuit adj root fuel)) (search, found) = some (after, closed) ∧
      Explored adj root start after
        (cycles ++ ws.flatMap (extensions adj root fuel start.stack)) closed ∧
      (closed = false → found = false ∧
        (∀ w ∈ ws, root ≤ w → w ≠ root ∧ after.blocked w = true) ∧
        ∀ u, search.blocked u = true → after.blocked u = true) := by
  induction ws generalizing search cycles found with
  | nil => exact ⟨search, found, rfl, by simpa using explored, fun none => ⟨none, by simp, by simp⟩⟩
  | cons w ws ih =>
      obtain ⟨middle, half, runs, visited, first⟩ := visit_spec sound bounded
        (edges w List.mem_cons_self) explored enough
      obtain ⟨after, closed, runs', visited', rest⟩ := ih
        (fun x member => edges x (List.mem_cons_of_mem w member)) visited
      refine ⟨after, closed, ?_, ?_, fun none => ?_⟩
      · rw [List.foldlM_cons, runs]
        exact runs'
      · rwa [List.flatMap_cons, ← List.append_assoc]
      · obtain ⟨halfNone, others, kept⟩ := rest none
        obtain ⟨foundNone, this_, kept'⟩ := first halfNone
        refine ⟨foundNone, fun x member above => ?_, fun u blocked => kept u (kept' u blocked)⟩
        rcases List.mem_cons.mp member with rfl | later
        · exact ⟨(this_ above).1, kept x (this_ above).2⟩
        · exact others x later above

/-- The stack repeats no vertex. -/
theorem Inv.length_stack_le (inv : Inv adj root search) : search.stack.length ≤ adj.length := by
  have nodup : search.stack.Nodup := by
    refine inv.apart.imp fun {lower upper} unwaited same => unwaited ?_
    rw [same]
    exact Relation.ReflTransGen.refl
  rw [← List.toFinset_card_of_nodup nodup, ← Finset.card_range adj.length]
  apply Finset.card_le_card
  intro u member
  exact Finset.mem_range.mpr (inv.bounded u (inv.onStack u (List.mem_toFinset.mp member)))

/-- A call of `circuit` finds what plain backtracking finds. -/
theorem circuit_spec (bounded : ∀ v, ∀ w ∈ successors adj v, w < adj.length) (fuel : Nat) :
    Sound adj root fuel := by
  induction fuel with
  | zero =>
      intro search v inv _ _ _ enough
      have := inv.length_stack_le
      omega
  | succ fuel ih =>
      intro search v inv quiet free vertex enough
      have entered := inv.enter free vertex
      obtain ⟨middle, found, runs, explored, waits⟩ := visits_spec ih bounded (successors adj v)
        (fun w member => member) (Explored.refl entered quiet)
        (by simp only [CycleSearch.enter, List.length_append, List.length_singleton]; omega)
      rw [List.nil_append] at explored
      rw [successors] at runs
      have isStack : middle.stack = search.stack ++ [v] := explored.stack
      have cycles_ : (successors adj v).flatMap
          (extensions adj root fuel (search.enter v).stack) =
          closings (successors adj) root (fuel + 1) (search.stack ++ [v]) v := rfl
      rw [cycles_] at explored
      cases found with
      | true =>
          obtain ⟨after, frees, freed⟩ := unblock_spec (adj.length + 1) middle v
            explored.inv.settled explored.inv.bounded (held_lt middle adj.length)
          refine ⟨after.leave, true, by rw [circuit, runs]; simp [frees], ?_, by simp⟩
          exact
            { inv := explored.inv.freed isStack freed
              stack := by rw [leave, freed.same]; simp [isStack]
              foundCycles := by rw [leave, freed.same]; exact explored.foundCycles
              remaining := by rw [leave, freed.same]; exact explored.remaining
              truncated := by rw [leave, freed.same]; exact explored.truncated
              reports := explored.reports
              grown := by simp }
      | false =>
          obtain ⟨-, closed, kept⟩ := waits rfl
          refine ⟨(middle.await adj root v).leave, false, by rw [circuit, runs]; rfl, ?_,
            fun _ => kept v enter_blocked_self⟩
          exact
            { inv := explored.inv.await isStack closed
              stack := by simp [leave, await, isStack]
              foundCycles := explored.foundCycles
              remaining := explored.remaining
              truncated := explored.truncated
              reports := explored.reports
              grown := fun _ u blocked => kept u (enter_blocked blocked) }

end Explore

end CycleSearch

section Enumerate

/-- A finite graph, as increasing lists of successors. -/
structure AdjacencyLists where
  rows : List (List Nat)
  increasing : ∀ row ∈ rows, row.Pairwise (· < ·)
  within : ∀ row ∈ rows, ∀ w ∈ row, w < rows.length

namespace AdjacencyLists

variable (graph : AdjacencyLists)

/-- The edges of the graph. -/
def next (v : Nat) : List Nat := CycleSearch.successors graph.rows v

/-- A list with a vertex in it is one of the rows. -/
theorem next_of_mem {v w : Nat} (edge : w ∈ graph.next v) : graph.next v ∈ graph.rows := by
  rw [next, CycleSearch.successors, List.getD_eq_getElem?_getD] at edge ⊢
  cases row : graph.rows[v]? with
  | none => simp [row] at edge
  | some row => exact List.mem_of_getElem? row

/-- The lists name vertices only. -/
theorem next_lt (v : Nat) : ∀ w ∈ graph.next v, w < graph.rows.length := fun w edge =>
  graph.within _ (graph.next_of_mem edge) w edge

/-- The lists increase. -/
theorem next_pairwise (v : Nat) : (graph.next v).Pairwise (· < ·) := by
  cases row : graph.next v with
  | nil => exact List.Pairwise.nil
  | cons w rest =>
      rw [← row]
      apply graph.increasing
      have edge : w ∈ graph.next v := by
        rw [row]
        exact List.mem_cons_self
      exact graph.next_of_mem edge

end AdjacencyLists

variable {adj : List (List Nat)} {cap : Nat}

/-- Before a search nothing is blocked. -/
theorem CycleSearch.inv_new (root remaining : Nat) :
    CycleSearch.Inv adj root (CycleSearch.new remaining) where
  settled _ _ := rfl
  bounded u blocked := by simp [CycleSearch.new] at blocked
  onStack v member := by simp [CycleSearch.new] at member
  held y blocked := by simp [CycleSearch.new] at blocked
  apart := List.Pairwise.nil

/-- The search from one root adds its cycles, as far as the cap allows. -/
theorem searchRoot_spec
    (bounded : ∀ v, ∀ w ∈ CycleSearch.successors adj v, w < adj.length) {root : Nat}
    (vertex : root < adj.length) (cycles : List (List Nat)) :
    searchRoot adj cap (cycles.take cap, decide (cap < cycles.length)) root =
      some ((cycles ++ closings (CycleSearch.successors adj) root (adj.length + 1) [root] root).take
          cap,
        decide (cap < (cycles ++
          closings (CycleSearch.successors adj) root (adj.length + 1) [root] root).length)) := by
  generalize closes : closings (CycleSearch.successors adj) root (adj.length + 1) [root] root = more
  rw [searchRoot]
  by_cases full : cap < cycles.length
  · have longer : cap < (cycles ++ more).length := by
      rw [List.length_append]
      omega
    rw [decide_eq_true full, decide_eq_true longer, List.take_append_of_le_length full.le]
    rfl
  · rw [List.take_of_length_le (not_lt.mp full), decide_eq_false full]
    obtain ⟨after, found, runs, explored, -⟩ := CycleSearch.circuit_spec bounded (adj.length + 1)
      (CycleSearch.new (cap - cycles.length)) root (CycleSearch.inv_new root _) rfl rfl vertex
      (by simp [CycleSearch.new])
    have path : (CycleSearch.new (cap - cycles.length)).stack ++ [root] = [root] := rfl
    rw [path, closes] at explored
    have foundCycles : after.foundCycles = more.take (cap - cycles.length) := explored.foundCycles
    have truncated : after.truncated = decide (cap - cycles.length < more.length) :=
      explored.truncated
    have room : (cap - cycles.length < more.length) ↔ cap < (cycles ++ more).length := by
      rw [List.length_append]
      omega
    simp [runs, foundCycles, truncated, room, List.take_append,
      List.take_of_length_le (not_lt.mp full)]

/-- Over the roots, the cycles found so far are a prefix of all of them, cut at the cap. -/
theorem searchRoots_spec
    (bounded : ∀ v, ∀ w ∈ CycleSearch.successors adj v, w < adj.length) (roots : List Nat)
    (vertices : ∀ root ∈ roots, root < adj.length) (cycles : List (List Nat)) :
    roots.foldlM (searchRoot adj cap) (cycles.take cap, decide (cap < cycles.length)) =
      some ((cycles ++ elementaryCycles (CycleSearch.successors adj) (adj.length + 1) roots).take cap,
        decide (cap < (cycles ++
          elementaryCycles (CycleSearch.successors adj) (adj.length + 1) roots).length)) := by
  induction roots generalizing cycles with
  | nil => simp [elementaryCycles]
  | cons root roots ih =>
      rw [List.foldlM_cons, searchRoot_spec bounded (vertices root List.mem_cons_self),
        Option.bind_eq_bind, Option.bind_some,
        ih fun v member => vertices v (List.mem_cons_of_mem root member)]
      rw [elementaryCycles, elementaryCycles, List.flatMap_cons, List.append_assoc]

/-- The cycles that are listed, as a list of all of them and where the cap cuts it. -/
theorem enumerateElementaryCycles_eq (graph : AdjacencyLists) (cap : Nat) :
    enumerateElementaryCycles graph.rows cap =
      some ((elementaryCycles graph.next (graph.rows.length + 1)
          (List.range graph.rows.length)).take cap,
        decide (cap < (elementaryCycles graph.next (graph.rows.length + 1)
          (List.range graph.rows.length)).length)) := by
  have runs := @searchRoots_spec graph.rows cap graph.next_lt (List.range graph.rows.length)
    (fun root member => List.mem_range.mp member) []
  simp only [List.nil_append, List.take_nil, List.length_nil, Nat.not_lt_zero, decide_false] at runs
  exact runs

/-- With as much fuel as there are vertices, every elementary cycle is listed. -/
theorem mem_elementaryCycles (graph : AdjacencyLists) {cycle : List Nat} :
    cycle ∈ elementaryCycles graph.next (graph.rows.length + 1) (List.range graph.rows.length) ↔
      ElementaryCycle graph.next cycle := by
  have enough : (Finset.range graph.rows.length).card < graph.rows.length + 1 + 1 := by
    rw [Finset.card_range]
    omega
  refine mem_elementaryCycles_iff
    (fun v w edge => Finset.mem_range.mpr (graph.next_lt v w edge)) enough fun v => ?_
  rw [List.mem_range, Finset.mem_range]

/-- The enumeration is exact: it ends with the first cycles, up to the cap, of the list of all
elementary cycles in lexicographic order, and is truncated exactly when there are more. -/
theorem enumerateElementaryCycles_spec (graph : AdjacencyLists) (cap : Nat) :
    ∃ cycles : List (List Nat),
      cycles.Pairwise (· < ·) ∧
      (∀ cycle, cycle ∈ cycles ↔ ElementaryCycle graph.next cycle) ∧
      enumerateElementaryCycles graph.rows cap =
        some (cycles.take cap, decide (cap < cycles.length)) := by
  refine ⟨_, ?_, fun cycle => mem_elementaryCycles graph, enumerateElementaryCycles_eq graph cap⟩
  exact elementaryCycles_pairwise graph.next_pairwise _ List.pairwise_lt_range

/-- Three vertices on three cycles, and one that leads to them. -/
def threeCycles : AdjacencyLists where
  rows := [[1, 2], [0, 2], [0], [0, 1]]
  increasing := by decide
  within := by decide

/-- A cap of two cuts the list after the second cycle. -/
theorem threeCycles_enumerated :
    (∃ cycles : List (List Nat),
      cycles.Pairwise (· < ·) ∧
      (∀ cycle, cycle ∈ cycles ↔ ElementaryCycle threeCycles.next cycle) ∧
      enumerateElementaryCycles threeCycles.rows 2 =
        some (cycles.take 2, decide (2 < cycles.length))) ∧
    enumerateElementaryCycles threeCycles.rows 2 = some ([[0, 1], [0, 1, 2]], true) :=
  ⟨enumerateElementaryCycles_spec threeCycles 2, by decide⟩

end Enumerate

end Egregore
