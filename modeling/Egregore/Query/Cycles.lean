import Mathlib.Logic.Function.Basic
import Std.Data.ExtTreeSet
import Mathlib.Tactic.Common

/-!
# Dependency cycles

`query/cycles.rs`: the blocked depth-first search that lists the elementary cycles
of a graph, root by root, up to a cap.
-/

namespace Egregore

/-- A set of vertex indices, a `BTreeSet<usize>`. -/
abbrev IndexSet := Std.ExtTreeSet Nat compare

/-- `CycleSearch`, without its graph and its root; a `Vec` over all vertices is a function. -/
structure CycleSearch where
  blocked : Nat → Bool
  blockMap : Nat → IndexSet
  stack : List Nat
  foundCycles : List (List Nat)
  remaining : Nat
  truncated : Bool

namespace CycleSearch

/-- `CycleSearch::unblock`; `none` if it nests deeper than the fuel. -/
def unblock : Nat → CycleSearch → Nat → Option CycleSearch
  | 0, _, _ => none
  | fuel + 1, search, v =>
      if search.blocked v then
        (search.blockMap v).toList.foldlM (fun search w => unblock fuel search w)
          { search with
            blocked := Function.update search.blocked v false
            blockMap := Function.update search.blockMap v ∅ }
      else some search

variable (adj : List (List Nat)) (root : Nat)

/-- The entry of `circuit`. -/
def enter (search : CycleSearch) (v : Nat) : CycleSearch :=
  { search with
    stack := search.stack ++ [v]
    blocked := Function.update search.blocked v true }

/-- A successor that is the root closes a cycle, or the cap truncates the search. -/
def close (search : CycleSearch) : CycleSearch :=
  if 0 < search.remaining then
    { search with
      foundCycles := search.foundCycles ++ [search.stack]
      remaining := search.remaining - 1 }
  else { search with truncated := true }

/-- The body of the first loop of `circuit`, with what it has found so far. -/
def visit (circuit : CycleSearch → Nat → Option (CycleSearch × Bool))
    (state : CycleSearch × Bool) (w : Nat) : Option (CycleSearch × Bool) :=
  let (search, found) := state
  if w < root || search.truncated then some (search, found)
  else if w = root then some (search.close, true)
  else if search.blocked w then some (search, found)
  else
    (circuit search w).map fun (search, closed) => (search, found || closed)

/-- The second loop of `circuit`: `v` waits for its successors. -/
def await (search : CycleSearch) (v : Nat) : CycleSearch :=
  { search with
    blockMap := (adj.getD v []).foldl
      (fun blockMap w =>
        if root ≤ w then Function.update blockMap w ((blockMap w).insert v) else blockMap)
      search.blockMap }

/-- The exit of `circuit`. -/
def leave (search : CycleSearch) : CycleSearch :=
  { search with stack := search.stack.dropLast }

/-- `CycleSearch::circuit`; `none` if it nests deeper than the fuel. -/
def circuit : Nat → CycleSearch → Nat → Option (CycleSearch × Bool)
  | 0, _, _ => none
  | fuel + 1, search, v => do
      let (search, found) ← (adj.getD v []).foldlM (visit root (circuit fuel))
        (search.enter v, false)
      let search ← if found then unblock (adj.length + 1) search v
        else some (search.await adj root v)
      return (search.leave, found)

end CycleSearch

/-- The search from one root, with what is left of the cap. -/
def CycleSearch.new (remaining : Nat) : CycleSearch where
  blocked _ := false
  blockMap _ := ∅
  stack := []
  foundCycles := []
  remaining
  truncated := false

/-- The body of the loop over the roots. -/
def searchRoot (adj : List (List Nat)) (cap : Nat) (state : List (List Nat) × Bool) (root : Nat) :
    Option (List (List Nat) × Bool) :=
  let (all, truncated) := state
  if truncated then some (all, truncated)
  else do
    let (search, _) ← CycleSearch.circuit adj root (adj.length + 1)
      (CycleSearch.new (cap - all.length)) root
    return (all ++ search.foundCycles, truncated || search.truncated)

/-- `enumerate_elementary_cycles`; the recursion nests at most once for each vertex. -/
def enumerateElementaryCycles (adj : List (List Nat)) (cap : Nat) :
    Option (List (List Nat) × Bool) :=
  (List.range adj.length).foldlM (searchRoot adj cap) ([], false)

end Egregore
