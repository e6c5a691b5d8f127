import Egregore.Base.Dedup
import Egregore.Base.Worklist
import Mathlib.Data.List.Sort
import Std.Data.ExtTreeMap
import Std.Data.ExtTreeSet

/-!
# Strongly connected components

Tarjan's algorithm with an explicit work stack of frames, each a node with the neighbours that
are still to be looked at. A frame is popped, and pushed back under the frame of a neighbour
that was not visited yet. The invariant speaks of the nodes on the stack: which frame's node
each of them reaches, which node of the stack each low link points to, and that no edge between
nodes of the stack goes below the low link of the nearest frame.
-/

namespace Egregore.Base

variable {κ : Type*} {cmp : κ → κ → Ordering} [Std.TransCmp cmp] [Std.LawfulEqCmp cmp]
  [DecidableEq κ]

/-- The state of the search; the top of the stack comes first. -/
structure Tarjan (κ : Type*) (cmp : κ → κ → Ordering) where
  indexOf : Std.ExtTreeMap κ Nat cmp
  lowlink : Std.ExtTreeMap κ Nat cmp
  onStack : Std.ExtTreeSet κ cmp
  stack : List κ
  nextIndex : Nat
  sccs : List (List κ)

/-- The nodes that are popped down to and with this one, and those that stay. -/
def splitAfter (node : κ) : List κ → List κ × List κ
  | [] => ([], [])
  | top :: stack =>
      if top = node then ([top], stack)
      else ((top :: (splitAfter node stack).1), (splitAfter node stack).2)

namespace Tarjan

def empty : Tarjan κ cmp := ⟨∅, ∅, ∅, [], 0, []⟩

def index (state : Tarjan κ cmp) (node : κ) : Nat := state.indexOf.getD node 0

def low (state : Tarjan κ cmp) (node : κ) : Nat := state.lowlink.getD node 0

/-- Number a node and push it. -/
def visit (state : Tarjan κ cmp) (node : κ) : Tarjan κ cmp :=
  { state with
    indexOf := state.indexOf.insert node state.nextIndex
    lowlink := state.lowlink.insert node state.nextIndex
    onStack := state.onStack.insert node
    stack := node :: state.stack
    nextIndex := state.nextIndex + 1 }

/-- Lower the low link of a node to a bound. -/
def lower (state : Tarjan κ cmp) (node : κ) (bound : Nat) : Tarjan κ cmp :=
  { state with lowlink := state.lowlink.insert node (min (state.low node) bound) }

/-- Look at the neighbours of a node up to the first that was not visited, which is visited and
returned with those after it. -/
def scan (node : κ) : List κ → Tarjan κ cmp → Tarjan κ cmp × Option (κ × List κ)
  | [], state => (state, none)
  | neighbour :: rest, state =>
      if state.indexOf.contains neighbour = false then
        (state.visit neighbour, some (neighbour, rest))
      else if state.onStack.contains neighbour then
        scan node rest (state.lower node (state.index neighbour))
      else scan node rest state

/-- Pop the component of a node. -/
def close (state : Tarjan κ cmp) (node : κ) : Tarjan κ cmp :=
  let popped := (splitAfter node state.stack).1
  { state with
    onStack := popped.foldl (fun kept node => kept.erase node) state.onStack
    stack := (splitAfter node state.stack).2
    sccs := state.sccs ++ [popped.insertionSort fun node other => cmp node other ≠ .gt] }

/-- The node has no neighbour left: its parent takes its low link, and a root is popped. -/
def finish (state : Tarjan κ cmp) (node : κ) (parent : Option κ) : Tarjan κ cmp :=
  let state := match parent with
    | some parent => state.lower parent (state.low node)
    | none => state
  if state.low node = state.index node then state.close node else state

variable (links : κ → List κ)

/-- The loop over the work stack. -/
def run : Nat → Tarjan κ cmp → List (κ × List κ) → Tarjan κ cmp
  | 0, state, _ => state
  | _ + 1, state, [] => state
  | fuel + 1, state, (node, neighbours) :: work =>
      match state.scan node neighbours with
      | (state, some (child, rest)) => run fuel state ((child, links child) :: (node, rest) :: work)
      | (state, none) => run fuel (state.finish node (work.head?.map Prod.fst)) work

variable (cmp) in
/-- The components, from each root that was not visited yet. -/
def components (nodes : List κ) : List (List κ) :=
  (nodes.foldl (fun state root =>
    if state.indexOf.contains root then state
    else run links (2 * nodes.length) (state.visit root) [(root, links root)])
      (empty : Tarjan κ cmp)).sccs

/-! ### The invariant -/

section Invariant

variable {links}

/-- A node of a component that was popped. -/
def Closed (state : Tarjan κ cmp) (node : κ) : Prop := ∃ scc ∈ state.sccs, node ∈ scc

variable (links) in
/-- The nodes that reach a node and are reached from it. -/
def IsComponent (scc : List κ) : Prop :=
  ∃ root ∈ scc, ∀ node, node ∈ scc ↔ Reaches links root node ∧ Reaches links node root

/-- The frame that is the last to be numbered before a node of the stack. -/
structure Nearest (state : Tarjan κ cmp) (work : List (κ × List κ)) (frame node : κ) : Prop where
  below : state.index frame ≤ state.index node
  last : ∀ other ∈ work, state.index other.1 ≤ state.index node →
    state.index other.1 ≤ state.index frame

variable (links) in
structure Holds (nodes : List κ) (state : Tarjan κ cmp) (work : List (κ × List κ)) : Prop where
  /-- The visited nodes are those of the stack and of the components. -/
  visited : ∀ node, node ∈ state.indexOf ↔ node ∈ state.stack ∨ state.Closed node
  apart : ∀ node ∈ state.stack, ¬ state.Closed node
  known : ∀ node ∈ state.indexOf, node ∈ nodes
  onStack : ∀ node, node ∈ state.onStack ↔ node ∈ state.stack
  /-- The stack is numbered upwards. -/
  order : state.stack.Pairwise fun later earlier => state.index earlier < state.index later
  below : ∀ node ∈ state.stack, state.index node < state.nextIndex
  /-- The frames stand on the stack, in its order. -/
  frames : (work.map Prod.fst).Sublist state.stack
  edges : ∀ frame ∈ work, ∀ neighbour ∈ frame.2, neighbour ∈ links frame.1
  returns : ∀ node ∈ state.stack, ∃ frame ∈ work,
    state.index frame.1 ≤ state.index node ∧ Reaches links node frame.1
  reached : ∀ frame ∈ work, ∀ node ∈ state.stack, state.index frame.1 ≤ state.index node →
    Reaches links frame.1 node
  explored : ∀ node ∈ state.stack, ∀ neighbour ∈ links node,
    neighbour ∈ state.indexOf ∨ ∃ frame ∈ work, frame.1 = node ∧ neighbour ∈ frame.2
  /-- A low link is the number of a node of the stack. -/
  lowIs : ∀ frame ∈ work, state.low frame.1 ≤ state.index frame.1 ∧
    ∃ node ∈ state.stack, state.index node = state.low frame.1 ∧ Reaches links frame.1 node
  /-- No edge that was looked at leads below the low link of the nearest frame. -/
  lowLeast : ∀ frame ∈ work, ∀ node ∈ state.stack, state.Nearest work frame.1 node →
    ∀ neighbour ∈ links node, neighbour ∈ state.stack → (node = frame.1 → neighbour ∉ frame.2) →
      state.low frame.1 ≤ state.index neighbour
  closedUnder : ∀ node, state.Closed node → ∀ neighbour ∈ links node, state.Closed neighbour
  components : ∀ scc ∈ state.sccs, IsComponent links scc
  ascending : ∀ scc ∈ state.sccs, scc.Pairwise fun node other => cmp node other = .lt
  disjoint : state.sccs.Pairwise fun scc other => ∀ node ∈ scc, node ∉ other

variable {nodes : List κ} {state : Tarjan κ cmp} {work : List (κ × List κ)} {node child : κ}
  {rest : List κ}

/-- A visit numbers its node with the next index. -/
theorem index_visit (state : Tarjan κ cmp) (node other : κ) :
    (state.visit node).index other =
      if other = node then state.nextIndex else state.index other := by
  rw [index, visit, Std.ExtTreeMap.getD_insert]
  simp only [Std.LawfulEqCmp.compare_eq_iff_eq, @eq_comm _ node, index]

/-- The low link of a visited node starts at its index. -/
theorem low_visit (state : Tarjan κ cmp) (node other : κ) :
    (state.visit node).low other = if other = node then state.nextIndex else state.low other := by
  rw [low, visit, Std.ExtTreeMap.getD_insert]
  simp only [Std.LawfulEqCmp.compare_eq_iff_eq, @eq_comm _ node, low]

/-- Lowering a low link changes that of its node only. -/
theorem low_lower (state : Tarjan κ cmp) (node other : κ) (bound : Nat) :
    (state.lower node bound).low other =
      if other = node then min (state.low node) bound else state.low other := by
  rw [low, lower, Std.ExtTreeMap.getD_insert]
  simp only [Std.LawfulEqCmp.compare_eq_iff_eq, @eq_comm _ node, low]

omit [Std.LawfulEqCmp cmp] [DecidableEq κ] in
/-- Below its node, the top frame is not the nearest. -/
theorem nearest_cons {frame other : κ} (near : state.Nearest work frame other)
    (below : state.index other < state.index node) :
    state.Nearest ((node, rest) :: work) frame other := by
  refine ⟨near.below, fun frame' member less => ?_⟩
  rcases List.mem_cons.mp member with rfl | member
  · dsimp only at less
    omega
  · exact near.last frame' member less

/-- Popping stops at the node. -/
theorem splitAfter_append {above below : List κ} (absent : node ∉ above) :
    splitAfter node (above ++ node :: below) = (above ++ [node], below) := by
  induction above with
  | nil => simp [splitAfter]
  | cons top above ih =>
      rw [List.mem_cons, not_or] at absent
      rw [List.cons_append, splitAfter, if_neg (Ne.symm absent.1), ih absent.2]
      rfl

omit [DecidableEq κ] in

/-- A name that occurs once can be taken off both lists. -/
theorem sublist_of_cons {above below names : List κ} (absent : node ∉ above)
    (sublist : (node :: names).Sublist (above ++ node :: below)) : names.Sublist below := by
  induction above with
  | nil => exact List.cons_sublist_cons.mp sublist
  | cons top above ih =>
      rw [List.mem_cons, not_or] at absent
      cases sublist with
      | cons _ sublist => exact ih absent.2 sublist
      | cons_cons _ _ => exact absurd rfl absent.1

omit [DecidableEq κ] in

/-- Popping some nodes leaves the others. -/
theorem mem_foldl_erase (popped : List κ) (kept : Std.ExtTreeSet κ cmp) (other : κ) :
    other ∈ popped.foldl (fun kept node => kept.erase node) kept ↔
      other ∈ kept ∧ other ∉ popped := by
  induction popped generalizing kept with
  | nil => simp
  | cons head tail ih =>
      rw [List.foldl_cons, ih, Std.ExtTreeSet.mem_erase, List.mem_cons, not_or, ne_eq,
        Std.LawfulEqCmp.compare_eq_iff_eq, @eq_comm _ head]
      tauto

omit [Std.LawfulEqCmp cmp] [DecidableEq κ] in

/-- A visited node stays visited. -/
theorem mem_visit_of_mem {other : κ} (member : other ∈ state.indexOf) :
    other ∈ (state.visit node).indexOf :=
  Std.ExtTreeMap.mem_insert.mpr (.inr member)

/-- The nodes that were not visited. -/
def unvisited (nodes : List κ) (state : Tarjan κ cmp) : Nat :=
  (nodes.filter fun node => node ∉ state.indexOf).length

omit [Std.LawfulEqCmp cmp] [DecidableEq κ] in

/-- Each visit leaves fewer unvisited nodes, which bounds the run. -/
theorem unvisited_visit (fresh : node ∉ state.indexOf) (known : node ∈ nodes) :
    unvisited nodes (state.visit node) < unvisited nodes state := by
  have narrowed : (nodes.filter fun other => other ∉ (state.visit node).indexOf) =
      (nodes.filter fun other => other ∉ state.indexOf).filter fun other =>
        other ∉ (state.visit node).indexOf := by
    rw [List.filter_filter]
    refine List.filter_congr fun other _ => ?_
    rw [decide_eq_decide.mpr Iff.rfl, ← Bool.decide_and, decide_eq_decide]
    exact ⟨fun outside => ⟨outside, fun inside => outside (mem_visit_of_mem inside)⟩, And.left⟩
  rw [unvisited, unvisited, narrowed, List.length_filter_lt_length_iff_exists]
  refine ⟨node, List.mem_filter.mpr ⟨known, by simpa using fresh⟩, ?_⟩
  have inside : node ∈ (state.visit node).indexOf := Std.ExtTreeMap.mem_insert_self
  simpa using inside

namespace Holds

omit [Std.LawfulEqCmp cmp] in

/-- Nodes on the stack with one index are one node. -/
theorem eq_of_index (holds : Holds links nodes state work) {other : κ}
    (member : node ∈ state.stack) (member' : other ∈ state.stack)
    (same : state.index node = state.index other) : node = other := by
  exact List.Pairwise.forall_of_forall_of_flip (R := fun later earlier : κ =>
      state.index later = state.index earlier → later = earlier) (fun _ _ _ => rfl)
    (holds.order.imp fun less same => by omega) (holds.order.imp fun less same => by omega)
    member member' same

omit [Std.LawfulEqCmp cmp] [DecidableEq κ] in

/-- The node of a frame is on the stack. -/
theorem mem_stack (holds : Holds links nodes state work) {frame : κ × List κ}
    (member : frame ∈ work) : frame.1 ∈ state.stack :=
  holds.frames.subset (List.mem_map_of_mem member)

/-- A node that was not visited is numbered above the stack. -/
theorem visit (holds : Holds links nodes state work) (fresh : node ∉ state.indexOf)
    (known : node ∈ nodes) (reaches : ∀ frame ∈ work, Reaches links frame.1 node) :
    Holds links nodes (state.visit node) ((node, links node) :: work) := by
  have notStacked : node ∉ state.stack := fun member => fresh ((holds.visited node).mpr (.inl member))
  have old : ∀ other ∈ state.stack, other ≠ node := fun other member same =>
    notStacked (same ▸ member)
  have index : ∀ other ∈ state.stack, (state.visit node).index other = state.index other :=
    fun other member => by rw [index_visit, if_neg (old other member)]
  have indexNode : (state.visit node).index node = state.nextIndex := by
    rw [index_visit, if_pos rfl]
  have low : ∀ frame ∈ work, (state.visit node).low frame.1 = state.low frame.1 :=
    fun frame member => by rw [low_visit, if_neg (old _ (holds.mem_stack member))]
  refine
    { visited := ?_, apart := ?_, known := ?_, onStack := ?_, order := ?_, below := ?_,
      frames := ?_, edges := ?_, returns := ?_, reached := ?_, explored := ?_, lowIs := ?_,
      lowLeast := ?_, closedUnder := holds.closedUnder, components := holds.components,
      ascending := holds.ascending, disjoint := holds.disjoint }
  · intro other
    change other ∈ state.indexOf.insert node state.nextIndex ↔
      other ∈ node :: state.stack ∨ state.Closed other
    rw [Std.ExtTreeMap.mem_insert, Std.LawfulEqCmp.compare_eq_iff_eq, holds.visited, List.mem_cons,
      or_assoc, @eq_comm _ node]
  · intro other member closed
    rcases List.mem_cons.mp member with rfl | member
    · exact fresh ((holds.visited other).mpr (.inr closed))
    · exact holds.apart other member closed
  · intro other member
    rcases Std.ExtTreeMap.mem_insert.mp member with same | member
    · exact Std.LawfulEqCmp.compare_eq_iff_eq.mp same ▸ known
    · exact holds.known other member
  · intro other
    change other ∈ state.onStack.insert node ↔ other ∈ node :: state.stack
    rw [Std.ExtTreeSet.mem_insert, Std.LawfulEqCmp.compare_eq_iff_eq, holds.onStack,
      List.mem_cons, @eq_comm _ node]
  · refine List.pairwise_cons.mpr ⟨fun other member => ?_, ?_⟩
    · rw [index other member, indexNode]
      exact holds.below other member
    · refine holds.order.imp_of_mem fun member member' less => ?_
      rwa [index _ member, index _ member']
  · intro other member
    change (state.visit node).index other < state.nextIndex + 1
    rcases List.mem_cons.mp member with rfl | member
    · omega
    · have := holds.below other member
      rw [index other member]
      omega
  · exact holds.frames.cons_cons node
  · intro frame member
    rcases List.mem_cons.mp member with rfl | member
    · exact fun _ inside => inside
    · exact holds.edges frame member
  · intro other member
    rcases List.mem_cons.mp member with rfl | member
    · exact ⟨_, List.mem_cons_self, le_refl _, .refl⟩
    · obtain ⟨frame, inside, below, back⟩ := holds.returns other member
      refine ⟨frame, List.mem_cons_of_mem _ inside, ?_, back⟩
      rwa [index other member, index _ (holds.mem_stack inside)]
  · intro frame member other stacked below
    rcases List.mem_cons.mp member with rfl | inWork
    · rcases List.mem_cons.mp stacked with rfl | stacked
      · exact .refl
      · have := holds.below other stacked
        rw [indexNode, index other stacked] at below
        omega
    · rcases List.mem_cons.mp stacked with rfl | stacked
      · exact reaches frame inWork
      · rw [index _ (holds.mem_stack inWork), index other stacked] at below
        exact holds.reached frame inWork other stacked below
  · intro other stacked neighbour linked
    rcases List.mem_cons.mp stacked with rfl | stacked
    · exact .inr ⟨_, List.mem_cons_self, rfl, linked⟩
    · rcases holds.explored other stacked neighbour linked with seen | ⟨frame, inside, same, left⟩
      · exact .inl (Std.ExtTreeMap.mem_insert.mpr (.inr seen))
      · exact .inr ⟨frame, List.mem_cons_of_mem _ inside, same, left⟩
  · intro frame member
    rcases List.mem_cons.mp member with rfl | member
    · rw [low_visit, if_pos rfl, indexNode]
      exact ⟨le_refl _, node, List.mem_cons_self, indexNode, .refl⟩
    · obtain ⟨least, target, stacked, same, path⟩ := holds.lowIs frame member
      rw [low frame member, index _ (holds.mem_stack member)]
      exact ⟨least, target, List.mem_cons_of_mem _ stacked, by rw [index target stacked, same], path⟩
  · intro frame member other stacked nearest neighbour linked inside notLeft
    rcases List.mem_cons.mp member with rfl | inWork
    · -- Nothing but the node itself is numbered from here on.
      rcases List.mem_cons.mp stacked with rfl | stacked
      · exact absurd linked (notLeft rfl)
      · have := holds.below other stacked
        have := nearest.below
        rw [indexNode, index other stacked] at this
        omega
    · have least := (holds.lowIs frame inWork).1
      have low := low frame inWork
      have frameBelow := holds.below _ (holds.mem_stack inWork)
      rcases List.mem_cons.mp inside with rfl | inside
      · rw [low, indexNode]
        omega
      · rcases List.mem_cons.mp stacked with rfl | stacked
        · -- The nearest frame of the node is its own.
          have := nearest.last _ List.mem_cons_self (le_refl _)
          rw [indexNode, index _ (holds.mem_stack inWork)] at this
          omega
        · rw [low, index neighbour inside]
          refine holds.lowLeast frame inWork other stacked ⟨?_, fun frame' member' below => ?_⟩
            neighbour linked inside notLeft
          · have := nearest.below
            rwa [index _ (holds.mem_stack inWork), index other stacked] at this
          · have := nearest.last frame' (List.mem_cons_of_mem _ member')
            rw [index _ (holds.mem_stack member'), index other stacked,
              index _ (holds.mem_stack inWork)] at this
            exact this below

omit [Std.LawfulEqCmp cmp] in
/-- A neighbour that was visited is looked at. -/
theorem consume (front : List (κ × List κ))
    (holds : Holds links nodes state (front ++ (node, child :: rest) :: work))
    (seen : child ∈ state.indexOf)
    (least : child ∈ state.stack → state.low node ≤ state.index child) :
    Holds links nodes state (front ++ (node, rest) :: work) := by
  have before : (node, child :: rest) ∈ front ++ (node, child :: rest) :: work :=
    List.mem_append_right _ List.mem_cons_self
  have after : (node, rest) ∈ front ++ (node, rest) :: work :=
    List.mem_append_right _ List.mem_cons_self
  have toOld : ∀ frame ∈ front ++ (node, rest) :: work,
      frame ∈ front ++ (node, child :: rest) :: work ∨ frame = (node, rest) := by
    intro frame member
    simp only [List.mem_append, List.mem_cons] at member ⊢
    tauto
  have toNew : ∀ frame ∈ front ++ (node, child :: rest) :: work,
      frame ∈ front ++ (node, rest) :: work ∨ frame = (node, child :: rest) := by
    intro frame member
    simp only [List.mem_append, List.mem_cons] at member ⊢
    tauto
  have names : (front ++ (node, rest) :: work).map Prod.fst =
      (front ++ (node, child :: rest) :: work).map Prod.fst := by simp
  have old : ∀ frame ∈ front ++ (node, rest) :: work,
      ∃ frame' ∈ front ++ (node, child :: rest) :: work, frame'.1 = frame.1 := by
    intro frame member
    rcases toOld frame member with member | rfl
    · exact ⟨frame, member, rfl⟩
    · exact ⟨_, before, rfl⟩
  have nearest : ∀ frame other, state.Nearest (front ++ (node, rest) :: work) frame other →
      state.Nearest (front ++ (node, child :: rest) :: work) frame other := by
    intro frame other nearest
    refine ⟨nearest.below, fun frame' member below => ?_⟩
    rcases toNew frame' member with member | rfl
    · exact nearest.last frame' member below
    · exact nearest.last (node, rest) after below
  refine
    { visited := holds.visited, apart := holds.apart, known := holds.known,
      onStack := holds.onStack, order := holds.order, below := holds.below,
      frames := names ▸ holds.frames, edges := ?_, returns := ?_, reached := ?_,
      explored := ?_, lowIs := ?_, lowLeast := ?_, closedUnder := holds.closedUnder,
      components := holds.components, ascending := holds.ascending, disjoint := holds.disjoint }
  · intro frame member neighbour left
    rcases toOld frame member with member | rfl
    · exact holds.edges frame member neighbour left
    · exact holds.edges _ before neighbour (List.mem_cons_of_mem _ left)
  · intro other stacked
    obtain ⟨frame, member, below, back⟩ := holds.returns other stacked
    rcases toNew frame member with member | rfl
    · exact ⟨frame, member, below, back⟩
    · exact ⟨_, after, below, back⟩
  · intro frame member
    obtain ⟨frame', member', same⟩ := old frame member
    rw [← same]
    exact holds.reached frame' member'
  · intro other stacked neighbour linked
    rcases holds.explored other stacked neighbour linked with seen' | ⟨frame, member, same, left⟩
    · exact .inl seen'
    · rcases toNew frame member with member | rfl
      · exact .inr ⟨frame, member, same, left⟩
      · rcases List.mem_cons.mp left with rfl | left
        · exact .inl seen
        · exact .inr ⟨_, after, same, left⟩
  · intro frame member
    obtain ⟨frame', member', same⟩ := old frame member
    rw [← same]
    exact holds.lowIs frame' member'
  · intro frame member other stacked near neighbour linked inside notLeft
    rcases toOld frame member with member | rfl
    · exact holds.lowLeast frame member other stacked (nearest _ _ near) neighbour linked inside
        notLeft
    · by_cases looked : other = node ∧ neighbour = child
      · obtain ⟨rfl, rfl⟩ := looked
        exact least inside
      · refine holds.lowLeast _ before other stacked (nearest _ _ near) neighbour linked inside
          fun same left => ?_
        rcases List.mem_cons.mp left with isChild | left
        · exact looked ⟨same, isChild⟩
        · exact notLeft same left

/-- A low link is lowered to the number of a node that is reached. -/
theorem lower {target : κ} (holds : Holds links nodes state work)
    (stacked : target ∈ state.stack) (reaches : Reaches links node target) :
    Holds links nodes (state.lower node (state.index target)) work := by
  have low : ∀ other, (state.lower node (state.index target)).low other ≤ state.low other := by
    intro other
    rw [low_lower]
    split
    · next same => exact same ▸ Nat.min_le_left _ _
    · exact le_refl _
  refine
    { visited := holds.visited, apart := holds.apart, known := holds.known,
      onStack := holds.onStack, order := holds.order, below := holds.below,
      frames := holds.frames, edges := holds.edges, returns := holds.returns,
      reached := holds.reached, explored := holds.explored, lowIs := ?_, lowLeast := ?_,
      closedUnder := holds.closedUnder, components := holds.components,
      ascending := holds.ascending, disjoint := holds.disjoint }
  · intro frame member
    obtain ⟨least, other, stacked', same, path⟩ := holds.lowIs frame member
    refine ⟨(low frame.1).trans least, ?_⟩
    rw [low_lower]
    split
    · next isNode =>
      rw [isNode] at same path
      rcases Nat.le_total (state.low node) (state.index target) with less | less
      · exact ⟨other, stacked', by rw [Nat.min_eq_left less]; exact same, isNode ▸ path⟩
      · exact ⟨target, stacked, by rw [Nat.min_eq_right less]; rfl, isNode ▸ reaches⟩
    · exact ⟨other, stacked', same, path⟩
  · intro frame member other stacked' near neighbour linked inside notLeft
    exact (low frame.1).trans (holds.lowLeast frame member other stacked' ⟨near.below, near.last⟩
      neighbour linked inside notLeft)

omit [Std.LawfulEqCmp cmp] [DecidableEq κ] in
/-- The frames below the top are numbered below it. -/
theorem index_lt (holds : Holds links nodes state ((node, rest) :: work)) {frame : κ × List κ}
    (member : frame ∈ work) : state.index frame.1 < state.index node := by
  have order := holds.order.sublist holds.frames
  rw [List.map_cons, List.pairwise_cons] at order
  exact order.1 _ (List.mem_map_of_mem member)

omit [Std.LawfulEqCmp cmp] [DecidableEq κ] in
/-- The top frame is the nearest to what is numbered from its node on. -/
theorem nearest_top (holds : Holds links nodes state ((node, rest) :: work)) {other : κ}
    (above : state.index node ≤ state.index other) :
    state.Nearest ((node, rest) :: work) node other := by
  refine ⟨above, fun frame member _ => ?_⟩
  rcases List.mem_cons.mp member with rfl | member
  · exact le_refl _
  · exact (holds.index_lt member).le

omit [Std.LawfulEqCmp cmp] in
/-- A node without neighbours left stays on the stack when its low link is below it. -/
theorem leave (holds : Holds links nodes state ((node, []) :: work))
    (low : state.low node < state.index node)
    (parent : ∀ frame ∈ work.head?, state.low frame.1 ≤ state.low node) :
    Holds links nodes state work := by
  have top : (node, []) ∈ (node, []) :: work := List.mem_cons_self
  refine
    { visited := holds.visited, apart := holds.apart, known := holds.known,
      onStack := holds.onStack, order := holds.order, below := holds.below,
      frames := (List.sublist_cons_self _ _).trans holds.frames,
      edges := fun frame member => holds.edges frame (List.mem_cons_of_mem _ member),
      returns := ?_,
      reached := fun frame member => holds.reached frame (List.mem_cons_of_mem _ member),
      explored := ?_,
      lowIs := fun frame member => holds.lowIs frame (List.mem_cons_of_mem _ member),
      lowLeast := ?_, closedUnder := holds.closedUnder, components := holds.components,
      ascending := holds.ascending, disjoint := holds.disjoint }
  · intro other stacked
    obtain ⟨frame, member, below, back⟩ := holds.returns other stacked
    rcases List.mem_cons.mp member with rfl | member
    · -- The node itself leads below, to where its low link points.
      obtain ⟨-, target, stacked', same, path⟩ := holds.lowIs _ top
      obtain ⟨frame', member', below', back'⟩ := holds.returns target stacked'
      dsimp only at below same
      rcases List.mem_cons.mp member' with rfl | member'
      · dsimp only at below'
        omega
      · exact ⟨frame', member', by omega, back.trans (path.trans back')⟩
    · exact ⟨frame, member, below, back⟩
  · intro other stacked neighbour linked
    rcases holds.explored other stacked neighbour linked with seen | ⟨frame, member, same, left⟩
    · exact .inl seen
    · rcases List.mem_cons.mp member with rfl | member
      · cases left
      · exact .inr ⟨frame, member, same, left⟩
  · intro frame member other stacked near neighbour linked inside notLeft
    rcases Nat.lt_or_ge (state.index other) (state.index node) with below | above
    · exact holds.lowLeast frame (List.mem_cons_of_mem _ member) other stacked
        (nearest_cons near below) neighbour linked inside notLeft
    · -- The nearest frame is now the parent's, whose low link is no greater.
      have least := holds.lowLeast _ top other stacked (holds.nearest_top above) neighbour linked
        inside fun _ => List.not_mem_nil
      cases work with
      | nil => cases member
      | cons first work =>
          have isParent : frame.1 = first.1 := by
            have less : state.index first.1 < state.index node :=
              holds.index_lt List.mem_cons_self
            have last := near.last first List.mem_cons_self (by omega)
            refine holds.eq_of_index (holds.mem_stack (List.mem_cons_of_mem _ member))
              (holds.mem_stack (List.mem_cons_of_mem _ List.mem_cons_self)) ?_
            rcases List.mem_cons.mp member with rfl | later
            · rfl
            · have order := (holds.order.sublist holds.frames)
              simp only [List.map_cons, List.pairwise_cons] at order
              have := order.2.1 _ (List.mem_map_of_mem later)
              omega
          rw [isParent]
          exact (parent first rfl).trans least

omit [Std.LawfulEqCmp cmp] [DecidableEq κ] in
/-- What a closed node reaches is closed. -/
theorem closed_of_reaches (holds : Holds links nodes state work) {other : κ}
    (closed : state.Closed node) (path : Reaches links node other) : state.Closed other := by
  induction path with
  | refl => exact closed
  | tail _ linked ih => exact holds.closedUnder _ ih _ linked

/-- The nodes from the root of a component on: they reach each other, and else only what is
closed. -/
structure Pops (links : κ → List κ) (state : Tarjan κ cmp) (node : κ) (above below : List κ) :
    Prop where
  split : state.stack = above ++ node :: below
  absent : node ∉ above
  later : ∀ other ∈ above ++ [node], other ∈ state.stack ∧ state.index node ≤ state.index other
  earlier : ∀ other ∈ below, other ∈ state.stack ∧ state.index other < state.index node
  outside : ∀ other ∈ below, other ∉ above ++ [node]
  out : ∀ other ∈ above ++ [node], ∀ neighbour ∈ links other,
    neighbour ∈ above ++ [node] ∨ state.Closed neighbour
  component : IsComponent links (above ++ [node])

omit [Std.LawfulEqCmp cmp] in

/-- A node whose low link is its index pops its component. -/
theorem pops (holds : Holds links nodes state ((node, []) :: work))
    (low : state.low node = state.index node) :
    ∃ above below, Pops links state node above below := by
  have top : (node, []) ∈ (node, []) :: work := List.mem_cons_self
  obtain ⟨above, below, split, absent⟩ :=
    List.eq_append_cons_of_mem (holds.mem_stack top : node ∈ state.stack)
  have order := holds.order
  rw [split, List.pairwise_append, List.pairwise_cons] at order
  obtain ⟨-, ⟨belowLess, -⟩, aboveMore⟩ := order
  have later : ∀ other ∈ above ++ [node],
      other ∈ state.stack ∧ state.index node ≤ state.index other := by
    intro other member
    rcases List.mem_append.mp member with member | member
    · exact ⟨split ▸ List.mem_append_left _ member,
        (aboveMore other member node List.mem_cons_self).le⟩
    · rw [List.mem_singleton] at member
      subst member
      exact ⟨holds.mem_stack top, le_refl _⟩
  have earlier : ∀ other ∈ below,
      other ∈ state.stack ∧ state.index other < state.index node := fun other member =>
    ⟨split ▸ List.mem_append_right _ (List.mem_cons_of_mem _ member), belowLess other member⟩
  have popped : ∀ other ∈ state.stack, state.index node ≤ state.index other →
      other ∈ above ++ [node] := by
    intro other member above'
    rw [split] at member
    rcases List.mem_append.mp member with member | member
    · exact List.mem_append_left _ member
    · rcases List.mem_cons.mp member with rfl | member
      · simp
      · have less : state.index other < state.index node := belowLess other member
        omega
  have out : ∀ other ∈ above ++ [node], ∀ neighbour ∈ links other,
      neighbour ∈ above ++ [node] ∨ state.Closed neighbour := by
    intro other member neighbour linked
    obtain ⟨stacked, above'⟩ := later other member
    have seen : neighbour ∈ state.indexOf := by
      rcases holds.explored other stacked neighbour linked with seen | ⟨frame, inWork, same, left⟩
      · exact seen
      · rcases List.mem_cons.mp inWork with rfl | inWork
        · cases left
        · have less : state.index frame.1 < state.index node := holds.index_lt inWork
          rw [same] at less
          omega
    rcases (holds.visited neighbour).mp seen with inside | closed
    · left
      have least := holds.lowLeast _ top other stacked (holds.nearest_top above') neighbour linked
        inside fun _ => List.not_mem_nil
      exact popped neighbour inside (low ▸ least)
    · exact .inr closed
  have reach : ∀ {other target}, other ∈ above ++ [node] → Reaches links other target →
      target ∈ above ++ [node] ∨ state.Closed target := by
    intro other target member path
    induction path with
    | refl => exact .inl member
    | tail _ linked ih =>
        rcases ih with inside | closed
        · exact out _ inside _ linked
        · exact .inr (holds.closedUnder _ closed _ linked)
  have self : node ∈ above ++ [node] := by simp
  refine ⟨above, below, split, absent, later, earlier, ?_, out, node, self, fun other => ⟨?_, ?_⟩⟩
  · intro other member member'
    have := (earlier other member).2
    have := (later other member').2
    omega
  · intro member
    obtain ⟨stacked, above'⟩ := later other member
    refine ⟨holds.reached _ top other stacked above', ?_⟩
    obtain ⟨frame, inWork, -, back⟩ := holds.returns other stacked
    rcases List.mem_cons.mp inWork with rfl | inWork'
    · exact back
    · -- A frame below would be reached from what is popped.
      rcases reach member back with inside | closed
      · have := (later _ inside).2
        have := holds.index_lt inWork'
        omega
      · exact absurd closed (holds.apart _ (holds.mem_stack inWork))
  · rintro ⟨path, back⟩
    rcases reach self path with inside | closed
    · exact inside
    · exact absurd (holds.closed_of_reaches closed back) (holds.apart _ (holds.mem_stack top))

/-- A node without neighbours left whose low link is its own number is the root of a component. -/
theorem close (holds : Holds links nodes state ((node, []) :: work))
    (low : state.low node = state.index node) :
    Holds links nodes (state.close node) work := by
  obtain ⟨above, below, pops⟩ := holds.pops low
  have popped : splitAfter node state.stack = (above ++ [node], below) := by
    rw [pops.split, splitAfter_append pops.absent]
  have stack : (state.close node).stack = below := by rw [Tarjan.close, popped]
  have closed : ∀ other, (state.close node).Closed other ↔
      state.Closed other ∨ other ∈ above ++ [node] := by
    intro other
    simp only [Closed, Tarjan.close, popped, List.mem_append, List.mem_singleton,
      or_and_right, exists_or, exists_eq_left, List.mem_insertionSort]
  have stacked : ∀ other ∈ below, other ∈ state.stack := fun other member =>
    (pops.earlier other member).1
  have isBelow : ∀ other ∈ state.stack, state.index other < state.index node → other ∈ below := by
    intro other member less
    rw [pops.split] at member
    rcases List.mem_append.mp member with inside | inside
    · have := (pops.later other (List.mem_append_left _ inside)).2
      omega
    · rcases List.mem_cons.mp inside with rfl | inside
      · omega
      · exact inside
  have suffix : below.Sublist state.stack := by
    rw [pops.split]
    exact (List.sublist_cons_self _ _).trans (List.sublist_append_right _ _)
  refine
    { visited := ?_, apart := ?_, known := holds.known, onStack := ?_, order := ?_, below := ?_,
      frames := ?_,
      edges := fun frame member => holds.edges frame (List.mem_cons_of_mem _ member),
      returns := ?_, reached := ?_, explored := ?_, lowIs := ?_, lowLeast := ?_,
      closedUnder := ?_, components := ?_, ascending := ?_, disjoint := ?_ }
  · intro other
    change other ∈ state.indexOf ↔ _
    rw [stack, closed, holds.visited, pops.split]
    simp only [List.mem_append, List.mem_cons, List.not_mem_nil, or_false]
    tauto
  · intro other member
    rw [stack] at member
    rw [closed, not_or]
    exact ⟨holds.apart other (stacked other member), pops.outside other member⟩
  · intro other
    change other ∈ (splitAfter node state.stack).1.foldl (fun kept node => kept.erase node)
      state.onStack ↔ _
    rw [stack, popped, mem_foldl_erase, holds.onStack]
    constructor
    · rintro ⟨member, notPopped⟩
      rw [pops.split] at member
      simp only [List.mem_append, List.mem_cons, List.not_mem_nil, or_false] at member notPopped
      tauto
    · exact fun member => ⟨stacked other member, pops.outside other member⟩
  · rw [stack]
    exact holds.order.sublist suffix
  · intro other member
    rw [stack] at member
    exact holds.below other (stacked other member)
  · have frames := holds.frames
    rw [List.map_cons, pops.split] at frames
    rw [stack]
    exact sublist_of_cons pops.absent frames
  · intro other member
    rw [stack] at member
    obtain ⟨frame, inWork, less, back⟩ := holds.returns other (stacked other member)
    rcases List.mem_cons.mp inWork with rfl | inWork
    · have := (pops.earlier other member).2
      dsimp only at less
      omega
    · exact ⟨frame, inWork, less, back⟩
  · intro frame inWork other member
    rw [stack] at member
    exact holds.reached frame (List.mem_cons_of_mem _ inWork) other (stacked other member)
  · intro other member neighbour linked
    rw [stack] at member
    rcases holds.explored other (stacked other member) neighbour linked with
      seen | ⟨frame, inWork, same, left⟩
    · exact .inl seen
    · rcases List.mem_cons.mp inWork with rfl | inWork
      · cases left
      · exact .inr ⟨frame, inWork, same, left⟩
  · intro frame inWork
    obtain ⟨least, target, member, same, path⟩ :=
      holds.lowIs frame (List.mem_cons_of_mem _ inWork)
    refine ⟨least, target, ?_, same, path⟩
    rw [stack]
    have := holds.index_lt inWork
    exact isBelow target member (by omega)
  · intro frame inWork other member near neighbour linked inside notLeft
    rw [stack] at member inside
    exact holds.lowLeast frame (List.mem_cons_of_mem _ inWork) other (stacked other member)
      (nearest_cons ⟨near.below, near.last⟩ (pops.earlier other member).2) neighbour linked
      (stacked neighbour inside) notLeft
  · intro other isClosed neighbour linked
    rw [closed] at isClosed ⊢
    rcases isClosed with isClosed | inside
    · exact .inl (holds.closedUnder other isClosed neighbour linked)
    · exact (pops.out other inside neighbour linked).symm
  · intro scc member
    rw [Tarjan.close, popped] at member
    rcases List.mem_append.mp member with member | member
    · exact holds.components scc member
    · obtain ⟨root, inside, same⟩ := pops.component
      rw [List.mem_singleton.mp member]
      exact ⟨root, (List.mem_insertionSort _).mpr inside, fun other => by
        rw [List.mem_insertionSort, same]⟩
  · intro scc member
    rw [Tarjan.close, popped] at member
    rcases List.mem_append.mp member with member | member
    · exact holds.ascending scc member
    · rw [List.mem_singleton.mp member]
      refine ascending_insertionSort ?_
      have nodup : state.stack.Nodup := holds.order.imp fun less same => by
        rw [same] at less
        omega
      rw [pops.split] at nodup
      exact nodup.sublist ((List.Sublist.refl above).append (List.singleton_sublist.mpr (by simp)))
  · rw [Tarjan.close, popped, List.pairwise_append]
    refine ⟨holds.disjoint, List.pairwise_singleton _ _, fun scc member other isPopped => ?_⟩
    rw [List.mem_singleton] at isPopped
    subst isPopped
    intro inside inside' found
    rw [List.mem_insertionSort] at found
    exact holds.apart _ (pops.later _ found).1 ⟨scc, member, inside'⟩

/-- Looking at the neighbours of the top frame. -/
theorem scan {neighbours : List κ} (within : ∀ node ∈ nodes, ∀ neighbour ∈ links node,
      neighbour ∈ nodes) (holds : Holds links nodes state ((node, neighbours) :: work)) :
    (∃ child rest, (state.scan node neighbours).2 = some (child, rest) ∧
      Holds links nodes (state.scan node neighbours).1
        ((child, links child) :: (node, rest) :: work) ∧
      unvisited nodes (state.scan node neighbours).1 < unvisited nodes state ∧
      ∀ other ∈ state.indexOf, other ∈ (state.scan node neighbours).1.indexOf) ∨
    (state.scan node neighbours).2 = none ∧
      Holds links nodes (state.scan node neighbours).1 ((node, []) :: work) ∧
      (state.scan node neighbours).1.indexOf = state.indexOf := by
  induction neighbours generalizing state with
  | nil => exact .inr ⟨rfl, holds, rfl⟩
  | cons child rest ih =>
      have top : (node, child :: rest) ∈ (node, child :: rest) :: work := List.mem_cons_self
      have linked : child ∈ links node := holds.edges _ top child List.mem_cons_self
      have stacked : node ∈ state.stack := holds.mem_stack top
      rw [Tarjan.scan]
      by_cases seen : child ∈ state.indexOf
      · have contains : ¬ state.indexOf.contains child = false := by
          rw [Bool.not_eq_false, ← Std.ExtTreeMap.mem_iff_contains]
          exact seen
        rw [if_neg contains]
        by_cases inside : child ∈ state.stack
        · have onStack : state.onStack.contains child = true := by
            rw [← Std.ExtTreeSet.mem_iff_contains, holds.onStack]
            exact inside
          rw [if_pos onStack]
          have lowered := holds.lower inside (Relation.ReflTransGen.single linked)
          refine ih (consume [] lowered seen fun _ => ?_)
          rw [low_lower, if_pos rfl]
          exact Nat.min_le_right _ _
        · have offStack : ¬ state.onStack.contains child = true := by
            rw [← Std.ExtTreeSet.mem_iff_contains, holds.onStack]
            exact inside
          rw [if_neg offStack]
          exact ih (consume [] holds seen fun stacked => absurd stacked inside)
      · have contains : state.indexOf.contains child = false := by
          rw [← Bool.not_eq_true, ← Std.ExtTreeMap.mem_iff_contains]
          exact seen
        rw [if_pos contains]
        have known : child ∈ nodes :=
          within node (holds.known node ((holds.visited node).mpr (.inl stacked))) child linked
        have reaches : ∀ frame ∈ (node, child :: rest) :: work, Reaches links frame.1 child := by
          intro frame member
          refine Relation.ReflTransGen.tail (holds.reached frame member node stacked ?_) linked
          rcases List.mem_cons.mp member with rfl | member
          · exact le_refl _
          · exact (holds.index_lt member).le
        have visited := holds.visit seen known reaches
        refine .inl ⟨child, rest, rfl, ?_, unvisited_visit seen known, fun _ => mem_visit_of_mem⟩
        refine consume [(child, links child)] visited
          (Std.ExtTreeMap.mem_insert_self) fun _ => ?_
        -- The new node is numbered above the frame.
        have least := (holds.lowIs _ top).1
        have below := holds.below node stacked
        have apart : node ≠ child := fun same =>
          seen ((holds.visited child).mpr (.inl (same ▸ stacked)))
        rw [low_visit, if_neg apart, index_visit, if_pos rfl]
        exact least.trans below.le

/-- A frame without neighbours left is finished. -/
theorem finish (holds : Holds links nodes state ((node, []) :: work)) :
    Holds links nodes (state.finish node (work.head?.map Prod.fst)) work ∧
      (state.finish node (work.head?.map Prod.fst)).indexOf = state.indexOf := by
  have top : (node, []) ∈ (node, []) :: work := List.mem_cons_self
  obtain ⟨least, target, stacked, same, path⟩ := holds.lowIs _ top
  have ends : ∀ lowered : Tarjan κ cmp, Holds links nodes lowered ((node, []) :: work) →
      lowered.indexOf = state.indexOf →
      (∀ frame ∈ work.head?, lowered.low frame.1 ≤ lowered.low node) →
      Holds links nodes (if lowered.low node = lowered.index node then lowered.close node
        else lowered) work ∧
      (if lowered.low node = lowered.index node then lowered.close node
        else lowered).indexOf = state.indexOf := by
    intro lowered holds kept parent
    split
    · next root => exact ⟨holds.close root, kept⟩
    · next other =>
      exact ⟨holds.leave (Nat.lt_of_le_of_ne (holds.lowIs _ top).1 other) parent, kept⟩
  cases work with
  | nil => exact ends state holds rfl fun _ none => by cases none
  | cons first work =>
      have less : state.index first.1 < state.index node := holds.index_lt List.mem_cons_self
      have reaches : Reaches links first.1 node :=
        holds.reached first (List.mem_cons_of_mem _ List.mem_cons_self) node (holds.mem_stack top)
          less.le
      have lowered := holds.lower stacked (reaches.trans path)
      have apart : node ≠ first.1 := fun equal => by rw [← equal] at less; omega
      rw [same] at lowered
      refine ends _ lowered rfl fun frame isFirst => ?_
      obtain rfl : first = frame := by simpa using isFirst
      change (state.lower first.1 (state.low node)).low first.1 ≤
        (state.lower first.1 (state.low node)).low node
      rw [low_lower, low_lower, if_pos rfl, if_neg apart]
      exact Nat.min_le_right _ _

/-- The loop empties the work stack. -/
theorem run (within : ∀ node ∈ nodes, ∀ neighbour ∈ links node, neighbour ∈ nodes) (fuel : Nat)
    (holds : Holds links nodes state work)
    (enough : 2 * unvisited nodes state + work.length ≤ fuel) :
    Holds links nodes (Tarjan.run links fuel state work) [] ∧
      ∀ other ∈ state.indexOf, other ∈ (Tarjan.run links fuel state work).indexOf := by
  induction fuel generalizing state work with
  | zero =>
      obtain rfl : work = [] := List.length_eq_zero_iff.mp (by omega)
      exact ⟨holds, fun _ member => member⟩
  | succ fuel ih =>
      cases work with
      | nil => exact ⟨holds, fun _ member => member⟩
      | cons frame work =>
          obtain ⟨node, neighbours⟩ := frame
          rw [List.length_cons] at enough
          rw [Tarjan.run]
          rcases holds.scan within with ⟨child, rest, found, descends, fewer, kept⟩ |
            ⟨found, done, same⟩
          · generalize state.scan node neighbours = scanned at found descends fewer kept ⊢
            obtain ⟨state', next⟩ := scanned
            dsimp only at found descends fewer kept
            subst found
            obtain ⟨final, more⟩ := ih descends (by simp only [List.length_cons]; omega)
            exact ⟨final, fun other member => more other (kept other member)⟩
          · generalize state.scan node neighbours = scanned at found done same ⊢
            obtain ⟨state', next⟩ := scanned
            dsimp only at found done same
            subst found
            obtain ⟨finished, same'⟩ := done.finish
            have count : unvisited nodes (state'.finish node (work.head?.map Prod.fst)) =
                unvisited nodes state := by
              rw [unvisited, unvisited, same', same]
            obtain ⟨final, more⟩ := ih finished (by omega)
            exact ⟨final, fun other member => more other (by rw [same', same]; exact member)⟩

end Holds

omit [Std.LawfulEqCmp cmp] [DecidableEq κ] in

/-- The invariant holds at the start. -/
theorem holds_empty : Holds links nodes (empty : Tarjan κ cmp) [] := by
  refine ⟨?_, ?_, ?_, ?_, .nil, ?_, .slnil, ?_, ?_, ?_, ?_, ?_, ?_, ?_, ?_, ?_, .nil⟩ <;>
    simp [empty, Closed]

variable (links) in
/-- Each node is in one component. -/
structure Partitions (nodes : List κ) (sccs : List (List κ)) : Prop where
  covers : ∀ node, node ∈ nodes ↔ ∃ scc ∈ sccs, node ∈ scc
  components : ∀ scc ∈ sccs, IsComponent links scc
  disjoint : sccs.Pairwise fun scc other => ∀ node ∈ scc, node ∉ other

/-- The components of a graph partition its nodes. -/
theorem components_partitions
    (within : ∀ node ∈ nodes, ∀ neighbour ∈ links node, neighbour ∈ nodes) :
    Partitions links nodes (Tarjan.components cmp links nodes) ∧
      ∀ scc ∈ Tarjan.components cmp links nodes,
        scc.Pairwise fun node other => cmp node other = .lt := by
  have roots : ∀ roots : List κ, (∀ root ∈ roots, root ∈ nodes) → ∀ state : Tarjan κ cmp,
      Holds links nodes state [] →
      ∃ final : Tarjan κ cmp, final = (roots.foldl (fun state root =>
        if state.indexOf.contains root then state
        else Tarjan.run links (2 * nodes.length) (state.visit root) [(root, links root)]) state) ∧
        Holds links nodes final [] ∧ (∀ other ∈ state.indexOf, other ∈ final.indexOf) ∧
        ∀ root ∈ roots, root ∈ final.indexOf := by
    intro roots
    induction roots with
    | nil => exact fun _ state holds => ⟨state, rfl, holds, fun _ member => member, by simp⟩
    | cons root roots ih =>
        intro known state holds
        have later : ∀ other ∈ roots, other ∈ nodes := fun other member =>
          known other (List.mem_cons_of_mem _ member)
        rw [List.foldl_cons]
        by_cases seen : root ∈ state.indexOf
        · rw [if_pos (Std.ExtTreeMap.mem_iff_contains.mp seen)]
          obtain ⟨final, rfl, holds, kept, all⟩ := ih later state holds
          refine ⟨_, rfl, holds, kept, fun other member => ?_⟩
          rcases List.mem_cons.mp member with rfl | member
          · exact kept other seen
          · exact all other member
        · have isKnown := known root List.mem_cons_self
          have fewer := unvisited_visit seen isKnown
          have most : unvisited nodes state ≤ nodes.length := List.length_filter_le ..
          rw [if_neg fun contains => seen (Std.ExtTreeMap.mem_iff_contains.mpr contains)]
          obtain ⟨emptied, more⟩ := Holds.run within (2 * nodes.length)
            (holds.visit seen isKnown fun _ none => by cases none)
            (by simp only [List.length_singleton]; omega)
          obtain ⟨final, rfl, holds, kept, all⟩ := ih later _ emptied
          refine ⟨_, rfl, holds, fun other member =>
            kept other (more other (mem_visit_of_mem member)), fun other member => ?_⟩
          rcases List.mem_cons.mp member with rfl | member
          · exact kept other (more other Std.ExtTreeMap.mem_insert_self)
          · exact all other member
  obtain ⟨final, same, holds, -, all⟩ := roots nodes (fun _ member => member) empty holds_empty
  rw [Tarjan.components, ← same]
  refine ⟨⟨fun node => ⟨fun member => ?_, ?_⟩, holds.components, holds.disjoint⟩,
    holds.ascending⟩
  · rcases (holds.visited node).mp (all node member) with stacked | closed
    · obtain ⟨frame, none, -⟩ := holds.returns node stacked
      cases none
    · exact closed
  · exact fun closed => holds.known node ((holds.visited node).mpr (.inr closed))

end Invariant

end Tarjan

end Egregore.Base
