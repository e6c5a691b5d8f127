import Egregore.Base.Traverse
import Egregore.Base.Worklist
import Mathlib.Data.List.Nodup

/-!
# Search along simple paths

A depth-first search that follows every simple path to its end. It fails on the
first path that comes back to itself; `pathEnds_spec` says that it fails exactly
when a cycle can be reached, and otherwise returns the nodes without successors.
-/

namespace Egregore.Base

variable {α : Type} (next : α → List α)

/-- Go on to a successor, unless the path has been there. -/
def follow [DecidableEq α] (search : List α → α → Except (List α) (List α)) (path : List α)
    (successor : α) : Except (List α) (List α) :=
  if successor ∈ path then .error (path.dropWhile fun step => step ≠ successor)
  else search (path ++ [successor]) successor

/-- The ends of the simple paths that continue a path from its last node, or the cycle that the
first of them to return closes. -/
def pathEnds [DecidableEq α] : Nat → List α → α → Except (List α) (List α)
  | 0, _, _ => .ok []
  | fuel + 1, path, node =>
      if (next node).isEmpty then .ok [node]
      else do
        let ends ← (next node).mapM (follow (pathEnds fuel) path)
        return ends.flatten

/-- A node that can be reached from itself. -/
abbrev OnCycle (node : α) : Prop :=
  Relation.TransGen (fun node successor => successor ∈ next node) node node

/-- The state of the search: a simple path to the node, of nodes that have successors. -/
structure OnPath (keys path : List α) (node : α) : Prop where
  nodup : (path ++ [node]).Nodup
  keyed : ∀ step ∈ path, step ∈ keys
  reaches : ∀ step ∈ path, Reaches next step node

variable {next} {keys path : List α} {node successor : α}

theorem OnPath.extend (onPath : OnPath next keys path node) (key : node ∈ keys)
    (link : successor ∈ next node) (fresh : successor ∉ path ++ [node]) :
    OnPath next keys (path ++ [node]) successor := by
  refine ⟨?_, fun step member => ?_, fun step member => ?_⟩
  · rw [List.nodup_append]
    refine ⟨onPath.nodup, by simp, fun step member other last => ?_⟩
    rw [List.mem_singleton.mp last]
    exact fun same => fresh (same ▸ member)
  · rcases List.mem_append.mp member with before | last
    · exact onPath.keyed step before
    · rwa [List.mem_singleton.mp last]
  · rcases List.mem_append.mp member with before | last
    · exact (onPath.reaches step before).tail link
    · rw [List.mem_singleton.mp last]
      exact .single link

/-- A simple path is no longer than the nodes that have successors, and one more. -/
theorem OnPath.length_le (onPath : OnPath next keys path node) : path.length ≤ keys.length :=
  (onPath.nodup.sublist (List.sublist_append_left _ _)).length_le_of_subset
    (fun step member => onPath.keyed step member)

/-- What an outcome of the search says of the nodes that can be reached. -/
def EndsDescribe (next : α → List α) (node : α) : Except (List α) (List α) → Prop
  | .error _ => ∃ step, Reaches next node step ∧ OnCycle next step
  | .ok ends => ends ≠ [] ∧ (∀ step, Reaches next node step → ¬ OnCycle next step) ∧
      ∀ step, step ∈ ends ↔ Reaches next node step ∧ next step = []

/-- The search from a node without successors. -/
theorem endsDescribe_leaf (leaf : next node = []) : EndsDescribe next node (.ok [node]) := by
  have only : ∀ step, Reaches next node step → step = node := by
    intro step reached
    rcases Relation.ReflTransGen.cases_head reached with same | ⟨successor, link, -⟩
    · exact same.symm
    · simp [leaf] at link
  refine ⟨List.cons_ne_nil _ _, fun step reached onCycle => ?_, fun step => ⟨?_, ?_⟩⟩
  · rw [only step reached] at onCycle
    obtain ⟨successor, link, -⟩ := Relation.TransGen.head'_iff.mp onCycle
    simp [leaf] at link
  · intro member
    obtain rfl := List.mem_singleton.mp member
    exact ⟨.refl, leaf⟩
  · rintro ⟨reached, -⟩
    exact List.mem_singleton.mpr (only step reached)

/-- A successor on the path closes a cycle. -/
theorem OnPath.closes (onPath : OnPath next keys path node) (link : successor ∈ next node)
    (again : successor ∈ path ++ [node]) :
    ∃ step, Reaches next node step ∧ OnCycle next step := by
  refine ⟨successor, .single link, ?_⟩
  rcases List.mem_append.mp again with before | last
  · exact Relation.TransGen.tail' (onPath.reaches successor before) link
  · rw [List.mem_singleton.mp last] at link ⊢
    exact .single link

/-- The ends from a node are those from its successors. -/
theorem endsDescribe_flatten {ends : List (List α)} (inside : next node ≠ [])
    (described : ∀ successor ∈ next node, ∃ found ∈ ends, EndsDescribe next successor (.ok found))
    (described' : ∀ found ∈ ends, ∃ successor ∈ next node,
      EndsDescribe next successor (.ok found)) :
    EndsDescribe next node (.ok ends.flatten) := by
  have below : ∀ successor ∈ next node, ∀ step, Reaches next successor step →
      ¬ OnCycle next step := by
    intro successor link
    obtain ⟨found, -, -, free, -⟩ := described successor link
    exact free
  refine ⟨fun none_ => ?_, fun step reached onCycle => ?_, fun step => ⟨?_, ?_⟩⟩
  · obtain ⟨successor, link⟩ := List.exists_mem_of_ne_nil _ inside
    obtain ⟨found, inEnds, some_, -⟩ := described successor link
    exact some_ (List.flatten_eq_nil_iff.mp none_ found inEnds)
  · rcases Relation.ReflTransGen.cases_head reached with rfl | ⟨successor, link, rest⟩
    · -- A cycle through the node itself goes through one of its successors.
      obtain ⟨successor, link, back⟩ := Relation.TransGen.head'_iff.mp onCycle
      exact below successor link node back onCycle
    · exact below successor link step rest onCycle
  · intro member
    obtain ⟨found, inEnds, inFound⟩ := List.mem_flatten.mp member
    obtain ⟨successor, link, -, -, ends⟩ := described' found inEnds
    obtain ⟨reached, leaf⟩ := (ends step).mp inFound
    exact ⟨reached.head link, leaf⟩
  · rintro ⟨reached, leaf⟩
    rcases Relation.ReflTransGen.cases_head reached with rfl | ⟨successor, link, rest⟩
    · exact absurd leaf inside
    · obtain ⟨found, inEnds, -, -, ends⟩ := described successor link
      exact List.mem_flatten.mpr ⟨found, inEnds, (ends step).mpr ⟨rest, leaf⟩⟩

/-- The search fails exactly when a cycle can be reached, and otherwise returns the ends. -/
theorem pathEnds_spec [DecidableEq α] (keyed : ∀ node, next node ≠ [] → node ∈ keys) (fuel : Nat)
    (onPath : OnPath next keys path node) (enough : keys.length < fuel + path.length) :
    EndsDescribe next node (pathEnds next fuel (path ++ [node]) node) := by
  induction fuel generalizing path node with
  | zero =>
      have short := onPath.length_le
      omega
  | succ fuel ih =>
      by_cases leaf : next node = []
      · rw [pathEnds, leaf]
        exact endsDescribe_leaf leaf
      · have inner : ∀ successor ∈ next node, successor ∉ path ++ [node] →
            EndsDescribe next successor
              (pathEnds next fuel (path ++ [node] ++ [successor]) successor) :=
          fun successor link fresh => ih (onPath.extend (keyed node leaf) link fresh)
            (by rw [List.length_append, List.length_singleton]; omega)
        simp only [pathEnds, List.isEmpty_iff, leaf, if_false]
        cases mapped : (next node).mapM (follow (pathEnds next fuel) (path ++ [node])) with
        | error cycle =>
            obtain ⟨successor, link, failed⟩ := exists_of_mapM_error mapped
            rw [follow] at failed
            split at failed
            next again => exact onPath.closes link again
            next fresh =>
              have described := inner successor link fresh
              rw [failed] at described
              obtain ⟨step, reached, onCycle⟩ := described
              exact ⟨step, reached.head link, onCycle⟩
        | ok ends =>
            have described : ∀ successor ∈ next node, ∃ found ∈ ends,
                EndsDescribe next successor (.ok found) := by
              intro successor link
              obtain ⟨found, member, made⟩ := exists_of_mapM_ok mapped link
              rw [follow] at made
              split at made
              · cases made
              next fresh => exact ⟨found, member, made ▸ inner successor link fresh⟩
            have described' : ∀ found ∈ ends, ∃ successor ∈ next node,
                EndsDescribe next successor (.ok found) := by
              intro found member
              obtain ⟨successor, link, made⟩ := (mem_of_mapM_ok mapped found).mp member
              rw [follow] at made
              split at made
              · cases made
              next fresh => exact ⟨successor, link, made ▸ inner successor link fresh⟩
            exact endsDescribe_flatten leaf described described'

end Egregore.Base
