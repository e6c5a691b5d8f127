import Mathlib.Data.List.Chain
import Mathlib.Data.List.Nodup
import Mathlib.Data.List.Perm.Subperm
import Mathlib.Logic.Relation
import Mathlib.Tactic.Common

/-!
# Following a partial pointer map

A walk along `next` ends at a node without a pointer, or comes back to a node of its path. The
part of the path since that node is a cycle, and the walks from all nodes find all cycles.
-/

namespace Egregore.Base

variable {α : Type*} [DecidableEq α] (next : α → Option α)

/-- The cycle that a walk runs into: its path since the node that it comes back to. -/
def cycleFrom : Nat → List α → α → List α
  | 0, _, _ => []
  | fuel + 1, path, cursor =>
      if cursor ∈ path then path.drop (path.idxOf cursor)
      else match next cursor with
        | some following => cycleFrom fuel (path ++ [cursor]) following
        | none => []

/-- The pointer of a node. -/
abbrev Follows (node following : α) : Prop := next node = some following

variable {next} {path nodes : List α} {cursor start node : α} {fuel : Nat}

omit [DecidableEq α] in
/-- A chain leads to each of its nodes, and from each to its end. -/
theorem reaches_of_isChain {first last : α} {rest : List α}
    (chain : (first :: rest ++ [last]).IsChain (Follows next)) (member : node ∈ first :: rest) :
    Relation.ReflTransGen (Follows next) first node ∧
      Relation.TransGen (Follows next) node last := by
  induction rest generalizing first node with
  | nil =>
      obtain rfl := List.mem_singleton.mp member
      exact ⟨.refl, .single (List.isChain_cons_cons.mp chain).1⟩
  | cons second rest ih =>
      obtain ⟨follows, onward⟩ := List.isChain_cons_cons.mp chain
      rcases List.mem_cons.mp member with rfl | member
      · exact ⟨.refl, .head follows (ih onward List.mem_cons_self).2⟩
      · obtain ⟨before, after⟩ := ih onward member
        exact ⟨.head follows before, after⟩

omit [DecidableEq α] in
/-- A chain is closed under its pointers, up to its end. -/
theorem mem_of_isChain {last following : α} {rest : List α}
    (chain : (rest ++ [last]).IsChain (Follows next)) (member : node ∈ rest)
    (follows : next node = some following) : following ∈ rest ++ [last] := by
  induction rest with
  | nil => cases member
  | cons first rest ih =>
      rw [List.cons_append] at chain ⊢
      rcases List.mem_cons.mp member with rfl | member
      · cases rest with
        | nil =>
            rw [List.nil_append, List.isChain_cons_cons, Follows, follows, Option.some.injEq] at chain
            simp [chain.1]
        | cons second rest =>
            rw [List.cons_append, List.isChain_cons_cons, Follows, follows,
              Option.some.injEq] at chain
            simp [chain.1]
      · exact List.mem_cons_of_mem _ (ih chain.tail member)

/-- A node of the path splits it. -/
theorem drop_idxOf (member : cursor ∈ path) :
    ∃ before after, path = before ++ cursor :: after ∧
      path.drop (path.idxOf cursor) = cursor :: after := by
  obtain ⟨before, after, rfl, absent⟩ := List.eq_append_cons_of_mem member
  refine ⟨before, after, rfl, ?_⟩
  rw [List.idxOf_append, if_neg absent, List.idxOf_cons_self, Nat.zero_add, List.drop_left]

omit [DecidableEq α] in
/-- A chain goes on along the pointer of its end. -/
theorem isChain_follow {following : α} (chain : (path ++ [cursor]).IsChain (Follows next))
    (follows : next cursor = some following) :
    (path ++ [cursor] ++ [following]).IsChain (Follows next) := by
  refine List.isChain_append.mpr ⟨chain, List.isChain_singleton _, ?_⟩
  simpa using follows

theorem transGen_of_mem_cycleFrom (chain : (path ++ [cursor]).IsChain (Follows next))
    (member : node ∈ cycleFrom next fuel path cursor) :
    Relation.TransGen (Follows next) node node := by
  induction fuel generalizing path cursor with
  | zero => cases member
  | succ fuel ih =>
      rw [cycleFrom] at member
      split at member
      next visited =>
        obtain ⟨before, after, rfl, dropped⟩ := drop_idxOf visited
        rw [dropped] at member
        rw [List.append_assoc] at chain
        obtain ⟨reached, back⟩ := reaches_of_isChain chain.right_of_append member
        exact back.trans_left reached
      next fresh =>
        split at member
        next following follows => exact ih (isChain_follow chain follows) member
        next => cases member

theorem mem_cycleFrom_of_transGen (known : ∀ node, (next node).isSome = true → node ∈ nodes)
    (cyclic : Relation.TransGen (Follows next) start start)
    (chain : (path ++ [cursor]).IsChain (Follows next)) (nodup : path.Nodup)
    (within : ∀ node ∈ path, node ∈ nodes)
    (back : Relation.ReflTransGen (Follows next) cursor start)
    (enough : nodes.length < fuel + path.length) :
    start ∈ cycleFrom next fuel path cursor := by
  induction fuel generalizing path cursor with
  | zero =>
      have fits := (List.subperm_of_subset nodup within).length_le
      omega
  | succ fuel ih =>
      rw [cycleFrom]
      split
      next visited =>
        obtain ⟨before, after, rfl, dropped⟩ := drop_idxOf visited
        rw [dropped]
        rw [List.append_assoc] at chain
        have round := chain.right_of_append
        -- The nodes since the first visit are closed under the pointers.
        clear ih enough cyclic
        induction back with
        | refl => exact List.mem_cons_self
        | tail _ follows inside =>
            rcases List.mem_append.mp (mem_of_isChain round inside follows) with member | last
            · exact member
            · rw [List.mem_singleton.mp last]
              exact List.mem_cons_self
      next fresh =>
        obtain ⟨following, follows, later⟩ :=
          Relation.TransGen.head'_iff.mp (cyclic.trans_right back)
        rw [follows]
        have isKnown : cursor ∈ nodes := known cursor (by rw [follows]; rfl)
        refine ih (isChain_follow chain follows) ?_ ?_ later ?_
        · rw [← List.concat_eq_append]
          exact nodup.concat fresh
        · intro node member
          rcases List.mem_append.mp member with member | last
          · exact within node member
          · exact List.mem_singleton.mp last ▸ isKnown
        · rw [List.length_append, List.length_singleton]
          omega

/-- The walks from all nodes with a pointer find the nodes on cycles. -/
theorem mem_cycleFrom_iff {starts : List α}
    (known : ∀ node, (next node).isSome = true → node ∈ nodes)
    (started : ∀ node, (next node).isSome = true → node ∈ starts)
    (enough : nodes.length < fuel) :
    (∃ start ∈ starts, node ∈ cycleFrom next fuel [] start) ↔
      Relation.TransGen (Follows next) node node := by
  constructor
  · rintro ⟨start, -, member⟩
    exact transGen_of_mem_cycleFrom (List.isChain_singleton _) member
  · intro cyclic
    obtain ⟨following, follows, -⟩ := Relation.TransGen.head'_iff.mp cyclic
    exact ⟨node, started node (by rw [follows]; rfl),
      mem_cycleFrom_of_transGen known cyclic (List.isChain_singleton _) List.nodup_nil (by simp)
        .refl (by simpa using enough)⟩

end Egregore.Base
