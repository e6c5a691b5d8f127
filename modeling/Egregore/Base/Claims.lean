import Egregore.Base.OrderedMap
import Egregore.Base.Worklist

/-!
# Claims

Roots walk a graph one after the other, and each claims what it reaches: a node belongs to
the last root that reaches it. A node that the same roots reach in two graphs is claimed alike in
both.
-/

namespace Egregore.Base

open Classical in
/-- The last root that reaches the node. -/
noncomputable def claimant {α : Type*} (next : α → List α) (roots : List α) (node : α) :
    Option α :=
  roots.reverse.find? fun root => decide (Reaches next root node)

section Claimant

variable {α : Type*} {next next' : α → List α} {roots : List α} {node root : α}

theorem Reaches.mono (fewer : ∀ source, ∀ successor ∈ next' source, successor ∈ next source)
    (path : Reaches next' root node) : Reaches next root node :=
  Relation.ReflTransGen.mono (fun source successor => fewer source successor) _ _ path

end Claimant

/-! ## Walking from the roots -/

section Walks

variable {κ : Type*} {cmp : κ → κ → Ordering} [DecidableEq κ] [Std.TransCmp cmp]
  [Std.LawfulEqCmp cmp]

/-- Walk from each root in turn; a walk claims every node it visits. -/
def claimAll (next : κ → List κ) (fuel : Nat) (roots : List κ) : Std.ExtTreeMap κ κ cmp :=
  roots.foldl (fun owner root =>
    (walk next (fun node (owner : Std.ExtTreeMap κ κ cmp) => owner.insert node root) fuel [root] []
      owner).2) ∅

end Walks

end Egregore.Base
