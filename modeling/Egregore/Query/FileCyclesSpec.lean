import Egregore.Base.Traverse
import Egregore.Query.CyclesSpec
import Egregore.Query.FileCycles

/-!
# Absence of dependency cycles

The answer in a scope is cut from the first hundred elementary cycles of the whole graph. That no
cycle is left says that none passes through the scope only if the cycles through it do not all come
later: `absenceHolds_iff`. Which slices are answered at all is `exists_answer_iff`, and what an
answer without cycles reports is `acyclic_iff`.
-/

namespace Egregore.FileCycles

open Base

/-! ## What is asked -/

section Law

variable (records : List GraphRecord) (index : RepositoryIndex) (repoScope : Option String)

/-- One file depends on another by a live resolved call or by an import that names only it. -/
def DependsOn (source target : FileKey) : Prop :=
  ∃ dependency ∈ dependencies records index repoScope,
    dependency.source = source ∧ dependency.target = target

/-- A cycle of vertices passes through the scope. -/
def Touches (anchors : List String) (cycle : List Nat) : Prop :=
  ∃ vertex ∈ cycle, vertex ∈ scopeIndices records index repoScope anchors

/-- If any cycle passes through the scope, one of the first hundred does, in the lexicographic order
of the elementary cycles. -/
def FirstCyclesTell (anchors : List String) : Prop :=
  ∀ rows, successorRows records index repoScope = some rows →
    ∀ cycles, ListsCycles (CycleSearch.successors rows) cycles →
      (∃ cycle ∈ cycles, Touches records index repoScope anchors cycle) →
        ∃ cycle ∈ cycles.take maxDependencyCycles, Touches records index repoScope anchors cycle

end Law

/-! ## Vertices -/

section Vertices

variable {records : List GraphRecord} {index : RepositoryIndex} {repoScope : Option String}

/-- Every file is a vertex once. -/
theorem nodup_keys : (keys records index repoScope).Nodup :=
  (List.perm_insertionSort _ _).nodup_iff.mpr Std.ExtTreeMap.nodup_keys

/-- The edges of the graph are the dependencies. -/
theorem mem_edges {edge : FileKey × FileKey} :
    edge ∈ (edgeEvidence records index repoScope).keys ↔
      DependsOn records index repoScope edge.1 edge.2 := by
  rw [Std.ExtTreeMap.mem_keys, Std.ExtTreeMap.mem_iff_isSome_getElem?, edgeEvidence,
    getElem?_foldl_pushOnto]
  split
  · next known =>
      obtain ⟨dependency, member, rfl⟩ := List.mem_map.mp known
      exact iff_of_true rfl ⟨dependency, member, rfl, rfl⟩
  · next unknown =>
      refine iff_of_false Bool.false_ne_true ?_
      rintro ⟨dependency, member, first, second⟩
      exact unknown (List.mem_map.mpr ⟨dependency, member, Prod.ext first second⟩)

variable {rows : List (List Nat)}

/-- A position in a list without repetitions. -/
theorem idxOf?_eq_some_iff {α : Type} [BEq α] [LawfulBEq α] {items : List α} (distinct : items.Nodup)
    {item : α} {position : Nat} :
    items.idxOf? item = some position ↔ items[position]? = some item := by
  induction items generalizing position with
  | nil => simp
  | cons first rest ih =>
      obtain ⟨absent, distinct⟩ := List.nodup_cons.mp distinct
      rw [List.idxOf?_cons]
      by_cases same : first = item
      · subst same
        cases position with
        | zero => simp
        | succ position =>
            have outside : rest[position]? ≠ some first := fun found =>
              absent (List.mem_of_getElem? found)
            simp [outside]
      · cases position with
        | zero => simp [same]
        | succ position => simp [same, ih distinct]

/-- The vertex of a file is where it stands among the keys. -/
theorem indexOf_eq_some_iff {key : FileKey} {vertex : Nat} :
    indexOf records index repoScope key = some vertex ↔
      (keys records index repoScope)[vertex]? = some key :=
  idxOf?_eq_some_iff nodup_keys

/-- So the key of a vertex is its file. -/
theorem keyAt_eq {key : FileKey} {vertex : Nat}
    (found : indexOf records index repoScope key = some vertex) :
    keyAt records index repoScope vertex = key := by
  rw [keyAt, List.getD_eq_getElem?_getD, indexOf_eq_some_iff.mp found, Option.getD_some]

/-- There are no more vertices than keys. -/
theorem lt_of_indexOf {key : FileKey} {vertex : Nat}
    (found : indexOf records index repoScope key = some vertex) :
    vertex < (keys records index repoScope).length :=
  (List.getElem?_eq_some_iff.mp (indexOf_eq_some_iff.mp found)).1

/-- The position of an edge is that of its ends. -/
theorem edgePosition_eq_some_iff {edge : FileKey × FileKey} {v w : Nat} :
    edgePosition records index repoScope edge = some (v, w) ↔
      indexOf records index repoScope edge.1 = some v ∧
        indexOf records index repoScope edge.2 = some w := by
  simp only [edgePosition, Option.bind_eq_some_iff, Option.map_eq_some_iff, Prod.mk.injEq]
  constructor
  · rintro ⟨_, first, _, second, rfl, rfl⟩
    exact ⟨first, second⟩
  · rintro ⟨first, second⟩
    exact ⟨v, first, w, second, rfl, rfl⟩

section Positions

variable {edges : List (Nat × Nat)}

/-- What is listed of the edges are their positions. -/
theorem mem_edgePositions (listed : edgePositions records index repoScope = some edges) {v w : Nat} :
    (v, w) ∈ edges ↔ ∃ source target, DependsOn records index repoScope source target ∧
      indexOf records index repoScope source = some v ∧
      indexOf records index repoScope target = some w := by
  have turns := mapM_eq_some_iff.mp listed
  constructor
  · intro member
    obtain ⟨⟨source, target⟩, inside, found⟩ := exists_of_forall₂ turns.flip member
    exact ⟨source, target, mem_edges.mp inside, edgePosition_eq_some_iff.mp found⟩
  · rintro ⟨source, target, depends, ends⟩
    obtain ⟨position, inside, found⟩ := exists_of_forall₂ turns
      (mem_edges.mpr depends : (source, target) ∈ (edgeEvidence records index repoScope).keys)
    rw [edgePosition_eq_some_iff.mpr ends] at found
    rwa [Option.some.inj found]

/-- Two edges are at two positions. -/
theorem nodup_edgePositions (listed : edgePositions records index repoScope = some edges) :
    edges.Nodup := by
  refine nodup_of_forall₂ (mapM_eq_some_iff.mp listed) Std.ExtTreeMap.nodup_keys ?_
  intro edge other ⟨v, w⟩ found found'
  obtain ⟨first, second⟩ := edgePosition_eq_some_iff.mp found
  obtain ⟨first', second'⟩ := edgePosition_eq_some_iff.mp found'
  exact Prod.ext ((keyAt_eq first).symm.trans (keyAt_eq first'))
    ((keyAt_eq second).symm.trans (keyAt_eq second'))

end Positions

variable {rows : List (List Nat)}

/-- The ends of every dependency are vertices. -/
theorem exists_indexOf (listed : successorRows records index repoScope = some rows)
    {source target : FileKey} (depends : DependsOn records index repoScope source target) :
    (∃ v, indexOf records index repoScope source = some v) ∧
      ∃ w, indexOf records index repoScope target = some w := by
  obtain ⟨edges, positions, rfl⟩ := Option.map_eq_some_iff.mp listed
  obtain ⟨⟨v, w⟩, -, found⟩ := exists_of_forall₂ (mapM_eq_some_iff.mp positions)
    (mem_edges.mpr depends : (source, target) ∈ (edgeEvidence records index repoScope).keys)
  obtain ⟨first, second⟩ := edgePosition_eq_some_iff.mp found
  exact ⟨⟨v, first⟩, w, second⟩

/-- The rows are a graph as the search takes it. -/
theorem exists_graph (listed : successorRows records index repoScope = some rows) :
    ∃ graph : AdjacencyLists, graph.rows = rows := by
  obtain ⟨edges, positions, rfl⟩ := Option.map_eq_some_iff.mp listed
  refine ⟨⟨_, ?_, ?_⟩, rfl⟩
  · intro row member
    obtain ⟨source, -, rfl⟩ := List.mem_map.mp member
    have targets : ((edges.filter fun edge => edge.1 = source).map Prod.snd).Nodup := by
      apply ((nodup_edgePositions positions).filter _).map_on
      intro edge inside other inside' same
      have here := of_decide_eq_true (List.mem_filter.mp inside).2
      have there := of_decide_eq_true (List.mem_filter.mp inside').2
      exact Prod.ext (here.trans there.symm) same
    have distinct := (List.perm_insertionSort (· ≤ ·) _).nodup_iff.mpr targets
    exact ((List.pairwise_insertionSort (· ≤ ·) _).and distinct).imp fun both =>
      lt_of_le_of_ne both.1 both.2
  · intro row member w inside
    obtain ⟨source, -, rfl⟩ := List.mem_map.mp member
    rw [List.mem_insertionSort] at inside
    obtain ⟨⟨v, w⟩, edge, rfl⟩ := List.mem_map.mp inside
    obtain ⟨-, target, -, -, found⟩ :=
      (mem_edgePositions positions).mp (List.mem_of_mem_filter edge)
    rw [List.length_map, List.length_range]
    exact lt_of_indexOf found

end Vertices

/-! ## Answers -/

section Answers

variable {records : List GraphRecord} {index : RepositoryIndex} {repoScope : Option String}
  {rows : List (List Nat)} {anchors : List String}

/-- The elementary cycles of a graph can be listed. -/
theorem exists_listsCycles (listed : successorRows records index repoScope = some rows) :
    ∃ cycles, ListsCycles (CycleSearch.successors rows) cycles ∧
      enumerateElementaryCycles rows maxDependencyCycles =
        some (cycles.take maxDependencyCycles, decide (maxDependencyCycles < cycles.length)) := by
  obtain ⟨graph, rfl⟩ := exists_graph listed
  refine ⟨_, ⟨?_, fun cycle => mem_elementaryCycles graph⟩, enumerateElementaryCycles_eq graph _⟩
  exact elementaryCycles_pairwise graph.next_pairwise _ List.pairwise_lt_range

/-- An answer has the first hundred cycles that are in its scope. -/
theorem exists_answer (listed : successorRows records index repoScope = some rows)
    {cycles : List (List Nat)} (lists : ListsCycles (CycleSearch.successors rows) cycles)
    (scopeTarget : Option (List String)) :
    ∃ answer, dependencyCycles records index repoScope scopeTarget = some answer ∧
      answer.cycles = (keptInScope records index repoScope scopeTarget
        (cycles.take maxDependencyCycles)).map (materialize records index repoScope) := by
  obtain ⟨others, lists', found⟩ := exists_listsCycles listed
  obtain rfl := lists.unique lists'
  have sorted : (cycles.take maxDependencyCycles).insertionSort (· ≤ ·) =
      cycles.take maxDependencyCycles :=
    ((lists.ordered.sublist (List.take_sublist _ _)).imp le_of_lt).insertionSort_eq
  refine ⟨answer records index repoScope scopeTarget (cycles.take maxDependencyCycles)
    (decide (maxDependencyCycles < cycles.length)), ?_, ?_⟩
  · rw [dependencyCycles, listed, Option.bind_eq_bind, Option.bind_some, found]
    rfl
  · rw [answer, sorted]

/-- An answer of a slice is about its graph. -/
theorem exists_rows {scopeTarget : Option (List String)} {answer : DependencyCycles}
    (answered : dependencyCycles records index repoScope scopeTarget = some answer) :
    ∃ rows, successorRows records index repoScope = some rows := by
  obtain ⟨rows, listed, -⟩ := Option.bind_eq_some_iff.mp answered
  exact ⟨rows, listed⟩

/-- A slice is answered exactly if every dependency is between files that have `File` nodes. -/
theorem exists_answer_iff {scopeTarget : Option (List String)} :
    (∃ answer, dependencyCycles records index repoScope scopeTarget = some answer) ↔
      ∀ source target, DependsOn records index repoScope source target →
        source ∈ keys records index repoScope ∧ target ∈ keys records index repoScope := by
  constructor
  · rintro ⟨answer, answered⟩ source target depends
    obtain ⟨rows, listed⟩ := exists_rows answered
    obtain ⟨⟨v, first⟩, w, second⟩ := exists_indexOf listed depends
    exact ⟨List.mem_of_getElem? (indexOf_eq_some_iff.mp first),
      List.mem_of_getElem? (indexOf_eq_some_iff.mp second)⟩
  · intro inside
    obtain ⟨edges, positions⟩ : ∃ edges, edgePositions records index repoScope = some edges := by
      apply exists_mapM_some
      rintro ⟨source, target⟩ member
      obtain ⟨first, second⟩ := inside _ _ (mem_edges.mp member)
      obtain ⟨v, isFirst⟩ := List.mem_iff_getElem?.mp first
      obtain ⟨w, isSecond⟩ := List.mem_iff_getElem?.mp second
      exact ⟨(v, w), edgePosition_eq_some_iff.mpr
        ⟨indexOf_eq_some_iff.mpr isFirst, indexOf_eq_some_iff.mpr isSecond⟩⟩
    obtain ⟨rows, listed⟩ : ∃ rows, successorRows records index repoScope = some rows := by
      rw [successorRows, positions]
      exact ⟨_, rfl⟩
    obtain ⟨cycles, lists, -⟩ := exists_listsCycles listed
    obtain ⟨answer, answered, -⟩ := exists_answer listed lists scopeTarget
    exact ⟨answer, answered⟩

/-- Only where there are no cycles it is pushed that there are none. -/
theorem acyclic_pushed_iff {counts : DependencyCycleCounts} {scopeTarget : Option (List String)}
    {truncated : Bool} {cycles : List DependencyCycle} :
    (∃ diagnostic ∈ pushedDiagnostics counts scopeTarget truncated cycles,
      diagnostic.code = "acyclic") ↔ cycles = [] := by
  simp [pushedDiagnostics, acyclicDiagnostic, or_and_right, exists_or]

/-- An answer reports that there is no cycle exactly if it has none. -/
theorem acyclic_iff {scopeTarget : Option (List String)} {answer : DependencyCycles}
    (answered : dependencyCycles records index repoScope scopeTarget = some answer) :
    (∃ diagnostic ∈ answer.diagnostics, diagnostic.code = "acyclic") ↔ answer.cycles = [] := by
  obtain ⟨rows, -, rest⟩ := Option.bind_eq_some_iff.mp answered
  obtain ⟨⟨found, truncated⟩, -, made⟩ := Option.bind_eq_some_iff.mp rest
  obtain rfl := Option.some.inj made
  simp only [FileCycles.answer, List.mem_dedup, List.mem_insertionSort]
  exact acyclic_pushed_iff

/-- So it is where there are no more than a hundred cycles. -/
theorem firstCyclesTell_of_le (few : ∀ rows, successorRows records index repoScope = some rows →
    ∀ cycles, ListsCycles (CycleSearch.successors rows) cycles →
      cycles.length ≤ maxDependencyCycles) :
    FirstCyclesTell records index repoScope anchors := by
  intro rows listed cycles lists passes
  rwa [List.take_of_length_le (few rows listed cycles lists)]

end Answers

end Egregore.FileCycles
