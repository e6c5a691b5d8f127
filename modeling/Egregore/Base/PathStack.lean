import Egregore.Base.PathSearch
import Mathlib.Data.List.Chain
import Std.Data.ExtTreeSet

/-!
# Search along simple paths, with a stack of frames

The search of `PathSearch` as a loop: each frame holds what is left of a node's successors, and
the path and the set of its nodes are kept beside the stack. `search_spec` says that the loop
ends, that it fails exactly when a cycle can be reached, then with the nodes of a cycle, and that
it otherwise collects the nodes without successors.
-/

namespace Egregore.Base

/-! ## Cycles -/

/-- The nodes of a simple cycle, from one of them on. -/
structure IsCycle {α : Type} (next : α → List α) (first : α) (rest : List α) : Prop where
  nodup : (first :: rest).Nodup
  chain : (first :: rest ++ [first]).IsChain fun node successor => successor ∈ next node

section Cycles

variable {α : Type} [DecidableEq α] {next : α → List α}

/-- A successor on a simple path closes a cycle of the nodes from it on. -/
theorem isCycle_dropWhile {path : List α} {node successor : α} (nodup : (path ++ [node]).Nodup)
    (chain : (path ++ [node]).IsChain fun node successor => successor ∈ next node)
    (link : successor ∈ next node) (again : successor ∈ path ++ [node]) :
    ∃ rest, (path ++ [node]).dropWhile (fun step => step ≠ successor) = successor :: rest ∧
      IsCycle next successor rest := by
  obtain ⟨before, after, split⟩ := List.append_of_mem again
  rw [split] at nodup chain ⊢
  have apart : ∀ step ∈ before, decide (step ≠ successor) = true := by
    rintro step member
    refine decide_eq_true fun same => ?_
    rw [List.nodup_append] at nodup
    exact nodup.2.2 step member successor (by simp) same
  refine ⟨after, ?_, (List.nodup_append.mp nodup).2.1, ?_⟩
  · rw [List.dropWhile_append_of_pos apart, List.dropWhile_cons_of_neg (by simp)]
  · rw [List.isChain_append]
    refine ⟨(List.isChain_append.mp chain).2.1, .singleton _, fun last isLast other first => ?_⟩
    obtain rfl : successor = other := by simpa using first
    have ends : (before ++ successor :: after).getLast? = some last := by
      rw [List.getLast?_append, Option.mem_def.mp isLast]
      rfl
    rw [← split, List.getLast?_concat] at ends
    obtain rfl := Option.some.inj ends
    exact link

/-- What the search fails with is a cycle. -/
theorem pathEnds_error (fuel : Nat) {path : List α} {node : α} {cycle : List α}
    (nodup : (path ++ [node]).Nodup)
    (chain : (path ++ [node]).IsChain fun node successor => successor ∈ next node)
    (failed : pathEnds next fuel (path ++ [node]) node = .error cycle) :
    ∃ first rest, cycle = first :: rest ∧ IsCycle next first rest := by
  induction fuel generalizing path node with
  | zero => cases failed
  | succ fuel ih =>
      rw [pathEnds] at failed
      split at failed
      · cases failed
      · cases mapped : (next node).mapM (follow (pathEnds next fuel) (path ++ [node])) with
        | ok ends => simp [mapped, bind, Except.bind, pure, Except.pure] at failed
        | error found =>
            simp only [mapped, bind, Except.bind, Except.error.injEq] at failed
            subst failed
            obtain ⟨successor, link, stopped⟩ := exists_of_mapM_error mapped
            rw [follow] at stopped
            split at stopped
            next again =>
              obtain ⟨rest, same, isCycle⟩ := isCycle_dropWhile nodup chain link again
              exact ⟨successor, rest, (Except.error.inj stopped).symm.trans same, isCycle⟩
            next fresh =>
              refine ih ?_ ?_ stopped
              · rw [List.nodup_append]
                refine ⟨nodup, by simp, fun step member other last same => ?_⟩
                rw [List.mem_singleton.mp last] at same
                exact fresh (same ▸ member)
              · rw [List.isChain_append]
                refine ⟨chain, .singleton _, fun last isLast other first => ?_⟩
                obtain rfl : node = last := by simpa using isLast
                obtain rfl : successor = other := by simpa using first
                exact link

end Cycles

/-! ## The loop -/

variable {κ : Type} {cmp : κ → κ → Ordering} [Std.TransCmp cmp] [Std.LawfulEqCmp cmp]
  [DecidableEq κ]

/-- A node and those of its successors that are still to be visited. -/
structure DfsFrame (κ : Type) where
  node : κ
  successors : List κ

/-- The variables of the loop; the stack is written from its top. -/
structure DfsState (κ : Type) (cmp : κ → κ → Ordering) where
  heads : Std.ExtTreeSet κ cmp
  path : List κ
  pathSet : Std.ExtTreeSet κ cmp
  stack : List (DfsFrame κ)

variable (next : κ → List κ)

/-- The body of the loop: another state, or the outcome. -/
def DfsState.step (state : DfsState κ cmp) :
    DfsState κ cmp ⊕ Except (Std.ExtTreeSet κ cmp) (Std.ExtTreeSet κ cmp) :=
  match state.stack with
  | [] => .inr (.ok state.heads)
  | ⟨node, successor :: later⟩ :: stack =>
      if successor ∈ state.pathSet then
        let pos := (state.path.findIdx? fun step => step = successor).getD 0
        .inr (.error ((Std.ExtTreeSet.ofList (state.path.drop pos) cmp).insert successor))
      else
        .inl {
          heads := state.heads
          path := state.path ++ [successor]
          pathSet := state.pathSet.insert successor
          stack := ⟨successor, next successor⟩ :: ⟨node, later⟩ :: stack }
  | ⟨node, []⟩ :: stack =>
      .inl {
        heads := if (next node).isEmpty then state.heads.insert node else state.heads
        path := state.path.dropLast
        pathSet := state.pathSet.erase node
        stack := stack }

/-- The loop, for a number of turns. -/
def DfsState.run : Nat → DfsState κ cmp →
    Option (Except (Std.ExtTreeSet κ cmp) (Std.ExtTreeSet κ cmp))
  | 0, _ => none
  | turns + 1, state =>
      match state.step next with
      | .inl state => DfsState.run turns state
      | .inr outcome => some outcome

/-- The state before the first turn. -/
def DfsState.start (node : κ) : DfsState κ cmp where
  heads := ∅
  path := [node]
  pathSet := Std.ExtTreeSet.empty.insert node
  stack := [⟨node, next node⟩]

/-- Turns that lead from a state to another. -/
abbrev DfsState.Steps (state later : DfsState κ cmp) : Prop :=
  Relation.ReflTransGen (fun state later => state.step next = .inl later) state later

/-- The loop ends in the outcome. -/
def DfsState.Ends (state : DfsState κ cmp)
    (outcome : Except (Std.ExtTreeSet κ cmp) (Std.ExtTreeSet κ cmp)) : Prop :=
  ∃ last, state.Steps next last ∧ last.step next = .inr outcome

variable {next}

omit [Std.LawfulEqCmp cmp] in
theorem DfsState.Ends.run {state : DfsState κ cmp}
    {outcome : Except (Std.ExtTreeSet κ cmp) (Std.ExtTreeSet κ cmp)}
    (ends : state.Ends next outcome) :
    ∃ turns, ∀ more, state.run next (turns + more) = some outcome := by
  obtain ⟨last, steps, final⟩ := ends
  induction steps using Relation.ReflTransGen.head_induction_on with
  | refl =>
      refine ⟨1, fun more => ?_⟩
      rw [Nat.add_comm, DfsState.run, final]
  | head step _ ih =>
      obtain ⟨turns, ran⟩ := ih
      refine ⟨turns + 1, fun more => ?_⟩
      rw [Nat.add_right_comm, DfsState.run, step]
      exact ran more

omit [Std.LawfulEqCmp cmp] in
/-- More turns do not change an outcome. -/
theorem DfsState.run_add {turns : Nat} {state : DfsState κ cmp}
    {outcome : Except (Std.ExtTreeSet κ cmp) (Std.ExtTreeSet κ cmp)}
    (ran : state.run next turns = some outcome) (more : Nat) :
    state.run next (turns + more) = some outcome := by
  induction turns generalizing state with
  | zero => cases ran
  | succ turns ih =>
      rw [Nat.add_right_comm]
      simp only [DfsState.run] at ran ⊢
      split at ran
      · exact ih ran
      · exact ran

/-! ## The loop follows the search -/

/-- A state whose set of nodes is in step with its path. -/
def DfsState.at_ (heads : Std.ExtTreeSet κ cmp) (path : List κ) (stack : List (DfsFrame κ)) :
    DfsState κ cmp where
  heads := heads
  path := path
  pathSet := Std.ExtTreeSet.ofList path cmp
  stack := stack

section Turns

variable {heads : Std.ExtTreeSet κ cmp} {path later : List κ} {node successor : κ}
  {stack : List (DfsFrame κ)}

theorem DfsState.step_push (fresh : successor ∉ path) :
    (DfsState.at_ heads path (⟨node, successor :: later⟩ :: stack)).step next =
      .inl (.at_ heads (path ++ [successor])
        (⟨successor, next successor⟩ :: ⟨node, later⟩ :: stack)) := by
  have absent : successor ∉ Std.ExtTreeSet.ofList path cmp := by
    rw [Std.ExtTreeSet.mem_ofList]
    simpa using fresh
  have grown : (Std.ExtTreeSet.ofList path cmp).insert successor =
      Std.ExtTreeSet.ofList (path ++ [successor]) cmp := by
    apply Std.ExtTreeSet.ext_mem
    intro other
    rw [Std.ExtTreeSet.mem_insert, Std.ExtTreeSet.mem_ofList, Std.ExtTreeSet.mem_ofList,
      Std.LawfulEqCmp.compare_eq_iff_eq]
    simp only [List.contains_iff_mem, List.mem_append, List.mem_singleton]
    rw [or_comm, eq_comm]
  rw [DfsState.step, DfsState.at_]
  simp only [absent, if_false, grown]
  rfl

theorem DfsState.step_cycle (again : successor ∈ path) :
    (DfsState.at_ heads path (⟨node, successor :: later⟩ :: stack)).step next =
      .inr (.error (Std.ExtTreeSet.ofList (path.dropWhile fun step => step ≠ successor) cmp)) := by
  have present : successor ∈ Std.ExtTreeSet.ofList path cmp := by
    rw [Std.ExtTreeSet.mem_ofList]
    simpa using again
  have dropped : path.drop ((path.findIdx? fun step => step = successor).getD 0) =
      path.dropWhile fun step => step ≠ successor := by
    have bound : path.findIdx (fun step => step = successor) < path.length :=
      List.findIdx_lt_length_of_exists ⟨successor, again, by simp⟩
    rw [List.findIdx?_eq_guard_findIdx_lt, Option.guard_eq_some_iff.mpr ⟨rfl, by simpa using bound⟩,
      Option.getD_some, List.dropWhile_eq_drop_findIdx_not]
    simp
  have inside : successor ∈ path.dropWhile fun step => step ≠ successor := by
    obtain ⟨before, after, rfl, apart⟩ := List.eq_append_cons_of_mem again
    have away : ∀ step ∈ before, decide (step ≠ successor) = true := by
      rintro step member
      refine decide_eq_true fun same => apart ?_
      rwa [← same]
    rw [List.dropWhile_append_of_pos away]
    simp
  rw [DfsState.step, DfsState.at_]
  simp only [present, if_true, dropped]
  congr 2
  apply Std.ExtTreeSet.ext_mem
  intro other
  rw [Std.ExtTreeSet.mem_insert, Std.ExtTreeSet.mem_ofList, Std.LawfulEqCmp.compare_eq_iff_eq,
    List.contains_iff_mem]
  exact ⟨fun member => member.elim (fun same => same ▸ inside) id, Or.inr⟩

theorem DfsState.step_pop (fresh : node ∉ path) :
    (DfsState.at_ heads (path ++ [node]) (⟨node, []⟩ :: stack)).step next =
      .inl (.at_ (if (next node).isEmpty then heads.insert node else heads) path stack) := by
  have shrunk : (Std.ExtTreeSet.ofList (path ++ [node]) cmp).erase node =
      Std.ExtTreeSet.ofList path cmp := by
    apply Std.ExtTreeSet.ext_mem
    intro other
    rw [Std.ExtTreeSet.mem_erase, Std.ExtTreeSet.mem_ofList, Std.ExtTreeSet.mem_ofList,
      Ne, Std.LawfulEqCmp.compare_eq_iff_eq]
    simp only [List.contains_iff_mem, List.mem_append, List.mem_singleton]
    constructor
    · rintro ⟨apart, inside | rfl⟩
      · exact inside
      · exact absurd rfl apart
    · exact fun inside => ⟨fun same => fresh (same ▸ inside), Or.inl inside⟩
  rw [DfsState.step, DfsState.at_]
  simp only [shrunk, List.dropLast_concat]
  rfl

/-- The state after the frame of a node is done with, or the cycle it stops at. -/
def DfsState.Explores (next : κ → List κ) (state : DfsState κ cmp)
    (onward : Std.ExtTreeSet κ cmp → DfsState κ cmp) (heads : Std.ExtTreeSet κ cmp) :
    Except (List κ) (List κ) → Prop
  | .ok ends => state.Steps next (onward (heads.insertMany ends))
  | .error cycle => state.Ends next (.error (Std.ExtTreeSet.ofList cycle cmp))

omit [Std.LawfulEqCmp cmp] in
/-- Turns before an exploration belong to it. -/
theorem DfsState.Explores.after {state later : DfsState κ cmp}
    {onward : Std.ExtTreeSet κ cmp → DfsState κ cmp} {outcome : Except (List κ) (List κ)}
    (steps : state.Steps next later) (explores : later.Explores next onward heads outcome) :
    state.Explores next onward heads outcome := by
  cases outcome with
  | ok ends => exact Relation.ReflTransGen.trans steps explores
  | error cycle =>
      obtain ⟨last, more, final⟩ := explores
      exact ⟨last, Relation.ReflTransGen.trans steps more, final⟩

/-- The loop over a frame does what the search does with the successors that are left. -/
theorem DfsState.explores_successors {search : List κ → κ → Except (List κ) (List κ)}
    (inner : ∀ successor ∈ later, successor ∉ path → ∀ (heads : Std.ExtTreeSet κ cmp) stack,
      (DfsState.at_ heads (path ++ [successor]) (⟨successor, next successor⟩ :: stack)).Explores
        next (fun heads => .at_ heads path stack) heads (search (path ++ [successor]) successor))
    (heads : Std.ExtTreeSet κ cmp) :
    (DfsState.at_ heads path (⟨node, later⟩ :: stack)).Explores next
      (fun heads => .at_ heads path (⟨node, []⟩ :: stack)) heads
      ((later.mapM (follow search path)).map List.flatten) := by
  induction later generalizing heads with
  | nil =>
      have none_ : heads.insertMany ([] : List κ) = heads := by
        apply Std.ExtTreeSet.ext_mem
        intro other
        simp
      simp only [List.mapM_nil, pure, Except.pure, Except.map, List.flatten_nil,
        DfsState.Explores, none_]
      exact .refl
  | cons successor later ih =>
      rw [List.mapM_cons]
      by_cases again : successor ∈ path
      · rw [follow, if_pos again]
        exact ⟨_, .refl, DfsState.step_cycle again⟩
      · rw [follow, if_neg again]
        have pushed := inner successor (by simp) again heads (⟨node, later⟩ :: stack)
        have first : (DfsState.at_ heads path (⟨node, successor :: later⟩ :: stack)).Steps next
            (.at_ heads (path ++ [successor])
              (⟨successor, next successor⟩ :: ⟨node, later⟩ :: stack)) :=
          .single (DfsState.step_push again)
        cases found : search (path ++ [successor]) successor with
        | error cycle =>
            rw [found] at pushed
            exact DfsState.Explores.after first pushed
        | ok ends =>
            rw [found] at pushed
            have rest := ih (fun other member => inner other (List.mem_cons_of_mem _ member))
              (heads.insertMany ends)
            have joined := DfsState.Explores.after (Relation.ReflTransGen.trans first pushed) rest
            cases mapped : later.mapM (follow search path) with
            | error cycle =>
                rw [mapped] at joined
                exact joined
            | ok others =>
                rw [mapped] at joined
                have both : (heads.insertMany ends).insertMany others.flatten =
                    heads.insertMany (ends :: others).flatten := by
                  apply Std.ExtTreeSet.ext_mem
                  intro other
                  simp only [Std.ExtTreeSet.mem_insertMany_list, List.contains_iff_mem,
                    List.flatten_cons, List.mem_append, or_assoc]
                simp only [Except.map, DfsState.Explores, both] at joined
                exact joined

/-- The loop over the frames above a stack does what the search does from their first node. -/
theorem DfsState.explores {keys : List κ} (keyed : ∀ node, next node ≠ [] → node ∈ keys)
    (fuel : Nat) (onPath : OnPath next keys path node)
    (enough : keys.length < fuel + path.length) (heads : Std.ExtTreeSet κ cmp)
    (stack : List (DfsFrame κ)) :
    (DfsState.at_ heads (path ++ [node]) (⟨node, next node⟩ :: stack)).Explores next
      (fun heads => .at_ heads path stack) heads (pathEnds next fuel (path ++ [node]) node) := by
  induction fuel generalizing path node heads stack with
  | zero =>
      have short := onPath.length_le
      omega
  | succ fuel ih =>
      have fresh : node ∉ path := fun member =>
        (List.nodup_append.mp onPath.nodup).2.2 node member node (by simp) rfl
      have popped : ∀ heads : Std.ExtTreeSet κ cmp,
          (DfsState.at_ heads (path ++ [node]) (⟨node, []⟩ :: stack)).Steps next
            (.at_ (if (next node).isEmpty then heads.insert node else heads) path stack) :=
        fun heads => .single (DfsState.step_pop fresh)
      rw [pathEnds]
      by_cases leaf : next node = []
      · have last := popped heads
        have only : heads.insert node = heads.insertMany [node] := by
          apply Std.ExtTreeSet.ext_mem
          intro other
          rw [Std.ExtTreeSet.mem_insert, Std.ExtTreeSet.mem_insertMany_list,
            Std.LawfulEqCmp.compare_eq_iff_eq, List.contains_iff_mem, List.mem_singleton, or_comm,
            eq_comm]
        simp only [leaf, List.isEmpty_nil, if_true, only] at last ⊢
        exact last
      · have inner : ∀ successor ∈ next node, successor ∉ path ++ [node] →
            ∀ (heads : Std.ExtTreeSet κ cmp) stack,
              (DfsState.at_ heads (path ++ [node] ++ [successor])
                (⟨successor, next successor⟩ :: stack)).Explores next
                (fun heads => .at_ heads (path ++ [node]) stack) heads
                (pathEnds next fuel (path ++ [node] ++ [successor]) successor) :=
          fun successor link fresh heads stack =>
            ih (onPath.extend (keyed node leaf) link fresh)
              (by rw [List.length_append, List.length_singleton]; omega) heads stack
        have explored : (DfsState.at_ heads (path ++ [node])
            (⟨node, next node⟩ :: stack)).Explores next
            (fun heads => .at_ heads (path ++ [node]) (⟨node, []⟩ :: stack)) heads
            (((next node).mapM (follow (pathEnds next fuel) (path ++ [node]))).map
              List.flatten) :=
          DfsState.explores_successors inner heads
        simp only [List.isEmpty_iff, leaf, if_false]
        cases mapped : (next node).mapM (follow (pathEnds next fuel) (path ++ [node])) with
        | error cycle =>
            rw [mapped] at explored
            exact explored
        | ok ends =>
            rw [mapped] at explored
            have last := popped (heads.insertMany ends.flatten)
            simp only [List.isEmpty_iff, leaf, if_false] at last
            exact Relation.ReflTransGen.trans explored last

end Turns

/-! ## What the loop finds -/

/-- What an outcome of the loop says of the nodes that can be reached. -/
def SearchDescribes (next : κ → List κ) (node : κ) :
    Except (Std.ExtTreeSet κ cmp) (Std.ExtTreeSet κ cmp) → Prop
  | .error cycle => (∃ step, Reaches next node step ∧ OnCycle next step) ∧
      ∃ first rest, IsCycle next first rest ∧ ∀ step, step ∈ cycle ↔ step ∈ first :: rest
  | .ok heads => (∀ step, Reaches next node step → ¬ OnCycle next step) ∧
      (∃ head, head ∈ heads) ∧ ∀ step, step ∈ heads ↔ Reaches next node step ∧ next step = []

/-- The loop ends, with an outcome that describes what can be reached. -/
theorem search_spec {keys : List κ} (keyed : ∀ node, next node ≠ [] → node ∈ keys) (node : κ) :
    ∃ outcome, (DfsState.start next node : DfsState κ cmp).Ends next outcome ∧
      SearchDescribes next node outcome := by
  have onPath : OnPath next keys [] node := ⟨by simp, by simp, by simp⟩
  have described := pathEnds_spec keyed (keys.length + 1) onPath (by simp)
  have explored := DfsState.explores keyed (keys.length + 1) onPath (by simp)
    (∅ : Std.ExtTreeSet κ cmp) []
  have start : (DfsState.start next node : DfsState κ cmp) =
      .at_ ∅ ([] ++ [node]) [⟨node, next node⟩] := by
    have one : (Std.ExtTreeSet.empty.insert node : Std.ExtTreeSet κ cmp) =
        Std.ExtTreeSet.ofList [node] cmp := by
      apply Std.ExtTreeSet.ext_mem
      intro other
      rw [Std.ExtTreeSet.mem_insert, Std.ExtTreeSet.mem_ofList, Std.LawfulEqCmp.compare_eq_iff_eq,
        List.contains_iff_mem, List.mem_singleton, eq_comm]
      exact or_iff_left Std.ExtTreeSet.not_mem_empty
    rw [DfsState.start, one]
    rfl
  rw [start]
  cases found : pathEnds next (keys.length + 1) ([] ++ [node]) node with
  | error cycle =>
      rw [found] at described explored
      obtain ⟨first, rest, rfl, isCycle⟩ :=
        pathEnds_error (keys.length + 1) (by simp) (by simp) found
      refine ⟨_, explored, described, first, rest, isCycle, fun step => ?_⟩
      rw [Std.ExtTreeSet.mem_ofList, List.contains_iff_mem]
  | ok ends =>
      rw [found] at described explored
      obtain ⟨some_, free, mem⟩ := described
      have heads : ∀ step, step ∈ (∅ : Std.ExtTreeSet κ cmp).insertMany ends ↔
          Reaches next node step ∧ next step = [] := by
        intro step
        rw [Std.ExtTreeSet.mem_insertMany_list, List.contains_iff_mem, mem]
        exact or_iff_right Std.ExtTreeSet.not_mem_empty
      obtain ⟨head, member⟩ := List.exists_mem_of_ne_nil _ some_
      exact ⟨_, ⟨_, explored, rfl⟩, free, ⟨head, (heads head).mpr ((mem head).mp member)⟩, heads⟩

end Egregore.Base
