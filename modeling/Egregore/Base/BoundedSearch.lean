import Egregore.Base.LevelSearch
import Egregore.Base.Traverse

/-!
# Bounded search

A search by levels up to a bound, with the hops at which nodes were found, and the count of the
nodes of each level beyond the bound. `Describes.run` reads a finished search in terms of walks,
and `hopOf_run` the hop of a node.
-/

namespace Egregore.Base

variable {κ π : Type*} {cmp : κ → κ → Ordering} [Std.TransCmp cmp] [Std.LawfulEqCmp cmp]
  [DecidableEq κ]

/-- A bounded search between two levels. -/
structure BoundedSearch (κ π : Type*) (cmp : κ → κ → Ordering) where
  depth : Nat := 0
  search : LevelSearch κ π cmp
  hopOf : Std.ExtTreeMap κ Nat cmp := ∅

namespace BoundedSearch

section Steps

variable (rank : π → π → Ordering) (out : κ → List (κ × π))

/-- Take one level, and note its hop. -/
def advance (bounded : BoundedSearch κ π cmp) : BoundedSearch κ π cmp :=
  let search := bounded.search.advance rank out
  { depth := bounded.depth + 1
    search := search
    hopOf := search.frontier.foldl (fun hops node => hops.insert node (bounded.depth + 1))
      bounded.hopOf }

/-- Take levels up to the bound; the number is that of the levels left. -/
def run : Nat → BoundedSearch κ π cmp → BoundedSearch κ π cmp
  | 0, bounded => bounded
  | left + 1, bounded =>
      if bounded.search.frontier.isEmpty then bounded else run left (bounded.advance rank out)

/-- The depths beyond a level that have nodes, with the number of their nodes. -/
def beyond : Nat → Nat → LevelSearch κ π cmp → List (Nat × Nat)
  | 0, _, _ => []
  | fuel + 1, depth, search =>
      let next := search.advance rank out
      if next.frontier.isEmpty then []
      else (depth + 1, next.frontier.length) :: beyond fuel (depth + 1) next

end Steps

variable {rank : π → π → Ordering} {out : κ → List (κ × π)} {start : κ}

/-- What a bounded search has found at its depth. -/
structure Describes (rank : π → π → Ordering) (out : κ → List (κ × π)) (start : κ)
    (bounded : BoundedSearch κ π cmp) : Prop where
  search : bounded.search.Describes rank out start bounded.depth
  hopOf : ∀ node hop, bounded.hopOf[node]? = some hop ↔
    1 ≤ hop ∧ hop ≤ bounded.depth ∧ AtLevel out start hop node

omit [DecidableEq κ] in
theorem getElem?_foldl_insert_hop (nodes : List κ) (hops : Std.ExtTreeMap κ Nat cmp)
    (depth : Nat) (node : κ) (hop : Nat) :
    (nodes.foldl (fun hops node => hops.insert node depth) hops)[node]? = some hop ↔
      node ∈ nodes ∧ hop = depth ∨ node ∉ nodes ∧ hops[node]? = some hop := by
  induction nodes generalizing hops with
  | nil => simp
  | cons first rest ih =>
      rw [List.foldl_cons, ih, Std.ExtTreeMap.getElem?_insert]
      by_cases later : node ∈ rest
      · simp [later]
      · by_cases here : first = node
        · simp [here, later, eq_comm, Std.ReflCmp.compare_self]
        · have apart : cmp first node ≠ .eq := fun same =>
            here (Std.LawfulEqCmp.eq_of_compare same)
          simp [later, Ne.symm here, apart]

omit [DecidableEq κ] in
theorem start_describes :
    ({ search := LevelSearch.start start } : BoundedSearch κ π cmp).Describes rank out start where
  search := LevelSearch.start_describes
  hopOf node hop := by
    simp only [Std.ExtTreeMap.getElem?_empty, reduceCtorEq, false_iff]
    omega

theorem Describes.advance [Std.TransCmp rank] {bounded : BoundedSearch κ π cmp}
    (described : bounded.Describes rank out start) :
    (bounded.advance rank out).Describes rank out start where
  search := described.search.advance
  hopOf node hop := by
    have next := described.search.advance
    rw [BoundedSearch.advance, getElem?_foldl_insert_hop, next.frontier, described.hopOf]
    constructor
    · rintro (⟨atNext, rfl⟩ | ⟨-, least, bound, atHop⟩)
      · exact ⟨by omega, Nat.le_refl _, atNext⟩
      · exact ⟨least, Nat.le_succ_of_le bound, atHop⟩
    · rintro ⟨least, bound, atHop⟩
      by_cases atNext : AtLevel out start (bounded.depth + 1) node
      · exact Or.inl ⟨atNext, atHop.unique atNext⟩
      · refine Or.inr ⟨atNext, least, ?_, atHop⟩
        rcases Nat.lt_or_ge hop (bounded.depth + 1) with less | more
        · exact Nat.le_of_lt_succ less
        · obtain rfl : hop = bounded.depth + 1 := Nat.le_antisymm bound more
          exact absurd atHop atNext

/-- The loop stops at the bound or where nothing is left. -/
theorem Describes.run [Std.TransCmp rank] {bounded : BoundedSearch κ π cmp}
    (described : bounded.Describes rank out start) (left : Nat) :
    (BoundedSearch.run rank out left bounded).Describes rank out start ∧
      ((BoundedSearch.run rank out left bounded).depth = bounded.depth + left ∨
        (BoundedSearch.run rank out left bounded).depth < bounded.depth + left ∧
        ∀ node, ¬ AtLevel out start (BoundedSearch.run rank out left bounded).depth node) := by
  induction left generalizing bounded with
  | zero => exact ⟨described, Or.inl rfl⟩
  | succ left ih =>
      rw [BoundedSearch.run]
      split
      · next spent =>
          refine ⟨described, Or.inr ⟨by omega, fun node atLevel => ?_⟩⟩
          have := (described.search.frontier node).mpr atLevel
          rw [List.isEmpty_iff.mp spent] at this
          contradiction
      · obtain ⟨described', ended⟩ := ih described.advance
        have depth : (bounded.advance rank out).depth = bounded.depth + 1 := rfl
        rw [depth] at ended
        refine ⟨described', ?_⟩
        rcases ended with atBound | ⟨below, spent⟩
        · exact Or.inl (by omega)
        · exact Or.inr ⟨by omega, spent⟩

/-- The hops within a bound are the levels up to it. -/
theorem hopOf_run [Std.TransCmp rank] (bound : Nat) (node : κ) (hop : Nat) :
    (BoundedSearch.run rank out bound
      ({ search := LevelSearch.start start } : BoundedSearch κ π cmp)).hopOf[node]? = some hop ↔
      1 ≤ hop ∧ hop ≤ bound ∧ AtLevel out start hop node := by
  have initial : ({ search := LevelSearch.start start } : BoundedSearch κ π cmp).Describes rank out
    start := start_describes
  obtain ⟨described, ended⟩ := initial.run bound
  simp only [Nat.zero_add] at ended
  rw [described.hopOf]
  rcases ended with atBound | ⟨below, spent⟩
  · rw [atBound]
  · constructor
    · rintro ⟨least, within, atHop⟩
      exact ⟨least, by omega, atHop⟩
    · rintro ⟨least, -, atHop⟩
      refine ⟨least, ?_, atHop⟩
      by_contra beyond
      exact not_atLevel_of_spent spent (Nat.le_of_not_le beyond) atHop

/-- The rows of the nodes that were found, where each of them has one. -/
theorem exists_rows {κ ε ρ : Type} {cmp : κ → κ → Ordering} [Std.TransCmp cmp]
    [Std.LawfulEqCmp cmp] {hopOf : Std.ExtTreeMap κ Nat cmp} {rowOf : κ × Nat → Except ε ρ}
    {holds : κ → Nat → ρ → Prop}
    (row : ∀ node hop, hopOf[node]? = some hop →
      ∃ row, rowOf (node, hop) = .ok row ∧ holds node hop row) :
    ∃ rows, hopOf.toList.mapM rowOf = .ok rows ∧
      (∀ made ∈ rows, ∃ node hop, hopOf[node]? = some hop ∧ holds node hop made) ∧
      ∀ node hop, hopOf[node]? = some hop → ∃ made ∈ rows, holds node hop made := by
  obtain ⟨rows, mapped⟩ := exists_mapM_ok fun entry (member : entry ∈ hopOf.toList) =>
    (row entry.1 entry.2 (Std.ExtTreeMap.mem_toList_iff_getElem?_eq_some.mp member)).imp
      fun _ => And.left
  refine ⟨rows, mapped, fun made member => ?_, fun node hop found => ?_⟩
  · obtain ⟨⟨node, hop⟩, inside, ok⟩ := (mem_of_mapM_ok mapped made).mp member
    have found := Std.ExtTreeMap.mem_toList_iff_getElem?_eq_some.mp inside
    obtain ⟨row, ok', described⟩ := row node hop found
    obtain rfl : made = row := Except.ok.inj (ok.symm.trans ok')
    exact ⟨node, hop, found, described⟩
  · obtain ⟨made, ok, described⟩ := row node hop found
    exact ⟨made, (mem_of_mapM_ok mapped made).mpr ⟨(node, hop),
      Std.ExtTreeMap.mem_toList_iff_getElem?_eq_some.mpr found, ok⟩, described⟩

end BoundedSearch

end Egregore.Base
